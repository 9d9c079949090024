/-
  Traccia Runtime formalization — fencing.

  * `WorkQueue.Fences`: what the calls of a queue do to the owners of the leases;
    `InMemoryWorkQueue.fences` and `PostgresWorkQueue.fences`;
  * `fencing_iff`: the reports of superseded executions are refused in every state of a run just
    when no worker claims an item again that it has claimed before;
  * `fencing_lost`: a worker that claims an item twice.
-/
import TracciaRuntime.Distributed.Worker
import TracciaRuntime.Proof.Deduplication

namespace TracciaRuntime

open Py

variable {V : Type}

namespace Workers
variable {Q : WorkQueue V}

/-- A superseded execution gets nothing done: what it reports is refused, by a `ConflictError`
    or as not renewed, and leaves the queue as it is. -/
def Fenced (s : Workers Q) : Prop :=
  ∀ i e, s.executions[i]? = some e → s.Superseded i e →
    ∀ (r : Report V) (now later : Time),
      TimedCall.Refused ⟨r.call e, now, later⟩ (Q.step ⟨r.call e, now, later⟩ s.queue).1 ∧
        (Q.step ⟨r.call e, now, later⟩ s.queue).2 = s.queue

/-- No worker gets an item by a claim that it has claimed before, and no accepted item is, under
    the id of one that a superseded execution works on, leased to the worker of that. -/
def Allows (s : Workers Q) : WorkerAct V → Prop
  | .claim workerId leaseSeconds now => ∀ x,
      (Q.step { call := .claim workerId leaseSeconds, now } s.queue).1 =
        .ok (.claimed (some x)) →
      ∀ e ∈ s.executions, e.item.id = x.id → e.workerId ≠ workerId
  | .enqueue x now =>
      (Q.step { call := .enqueue x, now } s.queue).1 = .ok (.enqueued x true) →
      ∀ i e, s.executions[i]? = some e → e.item.id = x.id → s.Superseded i e →
        x.owned e.workerId = false
  | .report .. => True

end Workers

/-- The owners of the leases: `has` are the ids of the stored items. -/
structure WorkQueue.Fences (Q : WorkQueue V) (Inv : Q.State → Prop)
    (has : Q.State → String → Prop) (owner : Q.State → String → Option String) : Prop where
  init : Inv Q.init
  step : ∀ {s c}, Inv s → Inv (Q.step c s).2
  keeps : ∀ {s c id}, Inv s → has s id → has (Q.step c s).2 id
  enqueue : ∀ {s c x}, Inv s → c.call = .enqueue x →
    (Q.step c s).2 = s ∧ (Q.step c s).1 ≠ .ok (.enqueued x true) ∨
    (Q.step c s).1 = .ok (.enqueued x true) ∧ ∀ id, has s id → ∀ w,
      owner (Q.step c s).2 id = some w ↔
        if id = x.id then x.owned w = true else owner s id = some w
  claim : ∀ {s c w secs}, Inv s → c.call = .claim w secs →
    (Q.step c s).2 = s ∧ (∀ x, (Q.step c s).1 ≠ .ok (.claimed (some x))) ∨
    ∃ x, (Q.step c s).1 = .ok (.claimed (some x)) ∧ has s x.id ∧
      ∀ id, owner (Q.step c s).2 id = if id = x.id then some w else owner s id
  report : ∀ {s c id w f}, Inv s → c.assignment = some (id, w, f) → owner s id = some w →
    (Q.step c s).1 = .ok c.accepted ∧
      ∀ j v, owner (Q.step c s).2 j = some v → owner s j = some v
  refuse : ∀ {s c id w f}, Inv s → c.assignment = some (id, w, f) → owner s id ≠ some w →
    c.Refused (Q.step c s).1 ∧ (Q.step c s).2 = s

/-! ## Runs of the workers -/

namespace Workers

section
variable {Q : WorkQueue V} {s : Workers Q}

theorem Superseded.claim {i : Nat} {e d : Execution V} {q : Q.State} (h : s.Superseded i e) :
    Superseded (Q := Q) ⟨q, s.executions ++ [d]⟩ i e := by
  obtain ⟨j, e', hij, he', hid⟩ := h
  have hj := (List.getElem?_eq_some_iff.1 he').1
  exact ⟨j, e', hij, by rw [List.getElem?_append_left hj]; exact he', hid⟩

/-- Whom a claim supersedes. -/
theorem Superseded.of_claim {i : Nat} {e d : Execution V} {q : Q.State}
    (h : Superseded (Q := Q) ⟨q, s.executions ++ [d]⟩ i e) :
    i < s.executions.length ∧ (s.Superseded i e ∨ d.item.id = e.item.id) := by
  obtain ⟨j, e', hij, he', hid⟩ := h
  have hj := (List.getElem?_eq_some_iff.1 he').1
  simp only [List.length_append, List.length_singleton] at hj
  refine ⟨by omega, ?_⟩
  by_cases hlt : j < s.executions.length
  · exact .inl ⟨j, e', hij, by rw [List.getElem?_append_left hlt] at he'; exact he', hid⟩
  · obtain rfl : j = s.executions.length := by omega
    simp only [List.getElem?_concat_length, Option.some.injEq] at he'
    exact .inr (he' ▸ hid)

theorem Report.assignment (r : Report V) (e : Execution V) (now later : Time) :
    ∃ f, TimedCall.assignment ⟨r.call e, now, later⟩ = some (e.item.id, e.workerId, f) := by
  cases r <;> exact ⟨_, rfl⟩

variable {Inv : Q.State → Prop} {has : Q.State → String → Prop}
  {owner : Q.State → String → Option String}

/-- No superseded execution owns the lease of its item. -/
def Disowned (owner : Q.State → String → Option String) (s : Workers Q) : Prop :=
  ∀ i e, s.executions[i]? = some e → s.Superseded i e → owner s.queue e.item.id ≠ some e.workerId

theorem fenced_iff (hQ : Q.Fences Inv has owner) (hs : Inv s.queue) :
    s.Fenced ↔ s.Disowned owner := by
  constructor
  · intro h i e he hsup ho
    obtain ⟨hr, -⟩ := h i e he hsup (.complete []) 0 0
    obtain ⟨f, hf⟩ := Report.assignment (.complete []) e 0 0
    rw [(hQ.report hs hf ho).1] at hr
    rcases hr with hr | ⟨-, hr⟩ <;> cases hr
  · intro h i e he hsup r now later
    obtain ⟨f, hf⟩ := Report.assignment r e now later
    exact hQ.refuse hs hf (h i e he hsup)

/-- What holds in every run: the items of the executions are stored. -/
structure Known (Inv : Q.State → Prop) (has : Q.State → String → Prop) (s : Workers Q) : Prop where
  queue : Inv s.queue
  items : ∀ e ∈ s.executions, has s.queue e.item.id

/-- What a claim does. -/
theorem step_claim (hQ : Q.Fences Inv has owner) (hs : Inv s.queue) (w : String) (secs : Int)
    (now : Time) :
    (s.step (.claim w secs now) = s ∧
      ∀ x, (Q.step { call := .claim w secs, now } s.queue).1 ≠ .ok (.claimed (some x))) ∨
    ∃ x q, (Q.step { call := .claim w secs, now } s.queue).1 = .ok (.claimed (some x)) ∧
      s.step (.claim w secs now) = ⟨q, s.executions ++ [⟨x, w⟩]⟩ ∧ has s.queue x.id ∧
      ∀ id, owner q id = if id = x.id then some w else owner s.queue id := by
  have hclaim := hQ.claim hs (c := { call := .claim w secs, now }) rfl
  simp only [Workers.step]
  generalize Q.step { call := .claim w secs, now } s.queue = res at hclaim ⊢
  obtain ⟨r, q⟩ := res
  rcases hclaim with ⟨hq, hr⟩ | ⟨x, hr, hx, ho⟩
  · obtain rfl : q = s.queue := hq
    refine .inl ⟨?_, hr⟩
    split
    · rename_i x q he
      exact absurd (congrArg Prod.fst he) (hr x)
    · rename_i r q _ he
      cases he
      rfl
  · obtain rfl : r = .ok (.claimed (some x)) := hr
    exact .inr ⟨x, q, rfl, rfl, hx, ho⟩

theorem Known.step (hQ : Q.Fences Inv has owner) (hs : s.Known Inv has) (a : WorkerAct V) :
    (s.step a).Known Inv has := by
  cases a with
  | enqueue x now => exact ⟨hQ.step hs.queue, fun e he => hQ.keeps hs.queue (hs.items e he)⟩
  | claim w secs now =>
    have hq : (s.step (.claim w secs now)).queue =
        (Q.step { call := .claim w secs, now } s.queue).2 := by
      simp only [Workers.step]
      split <;> rename_i he <;> exact (congrArg Prod.snd he).symm
    refine ⟨hq ▸ hQ.step hs.queue, fun e he => ?_⟩
    rw [hq]
    refine hQ.keeps hs.queue ?_
    rcases step_claim hQ hs.queue w secs now with ⟨hstep, -⟩ | ⟨x, q, -, hstep, hx, -⟩
    · rw [hstep] at he
      exact hs.items e he
    · rw [hstep] at he
      rcases List.mem_append.1 he with he | he
      · exact hs.items e he
      · rw [List.mem_singleton.1 he]
        exact hx
  | report i r now later =>
    simp only [Workers.step]
    split
    · exact ⟨hQ.step hs.queue, fun e he => hQ.keeps hs.queue (hs.items e he)⟩
    · exact hs

/-- An act that is allowed gives no lease to a superseded execution. -/
theorem Disowned.step (hQ : Q.Fences Inv has owner) (hs : s.Known Inv has) {a : WorkerAct V}
    (ha : s.Allows a) (h : s.Disowned owner) : (s.step a).Disowned owner := by
  cases a with
  | enqueue x now =>
    intro i e he hsup ho
    have ho' : owner (Q.step { call := .enqueue x, now } s.queue).2 e.item.id =
        some e.workerId := ho
    rcases hQ.enqueue hs.queue (c := { call := .enqueue x, now }) rfl with ⟨hq, -⟩ | ⟨hr, howner⟩
    · rw [hq] at ho'
      exact h i e he hsup ho'
    · have hhas := hs.items e (List.mem_of_getElem? he)
      have hif := (howner e.item.id hhas e.workerId).1 ho'
      split at hif
      · rename_i hid
        rw [ha hr i e he hid hsup] at hif
        cases hif
      · exact h i e he hsup hif
  | claim w secs now =>
    rcases step_claim hQ hs.queue w secs now with ⟨hstep, -⟩ | ⟨x, q, hr, hstep, -, howner⟩
    · rw [hstep]
      exact h
    · rw [hstep]
      intro i e he hsup ho
      obtain ⟨hlt, hold⟩ := hsup.of_claim
      have he : s.executions[i]? = some e := by
        rw [← he]
        exact (List.getElem?_append_left hlt).symm
      have ho : owner q e.item.id = some e.workerId := ho
      rw [howner] at ho
      split at ho
      · rename_i hid
        exact ha x hr e (List.mem_of_getElem? he) hid (Option.some.inj ho).symm
      · rename_i hid
        exact h i e he (hold.resolve_right fun hd => hid hd.symm) ho
  | report i r now later =>
    simp only [Workers.step]
    split
    · rename_i d hd
      intro j e he hsup ho
      obtain ⟨f, hf⟩ := Report.assignment r d now later
      by_cases hown : owner s.queue d.item.id = some d.workerId
      · exact h j e he hsup ((hQ.report hs.queue hf hown).2 _ _ ho)
      · have ho : owner (Q.step ⟨r.call d, now, later⟩ s.queue).2 e.item.id = some e.workerId := ho
        rw [(hQ.refuse hs.queue hf hown).2] at ho
        exact h j e he hsup ho
    · exact h

/-- An act that is not allowed does. -/
theorem Disowned.allows (hQ : Q.Fences Inv has owner) (hs : s.Known Inv has) {a : WorkerAct V}
    (h : (s.step a).Disowned owner) : s.Allows a := by
  cases a with
  | enqueue x now =>
    intro hr i e he hid hsup
    by_contra hx
    rcases hQ.enqueue hs.queue (c := { call := .enqueue x, now }) rfl with ⟨-, hne⟩ | ⟨-, howner⟩
    · exact hne hr
    · refine h i e he hsup ((howner e.item.id (hs.items e (List.mem_of_getElem? he)) _).2 ?_)
      rw [if_pos hid]
      exact Bool.eq_true_of_not_eq_false hx
  | claim w secs now =>
    intro x hr e he hid hw
    rcases step_claim hQ hs.queue w secs now with ⟨-, hne⟩ | ⟨y, q, hr', hstep, -, howner⟩
    · exact hne x hr
    · obtain rfl : x = y := by
        have := hr.symm.trans hr'
        cases this
        rfl
      rw [hstep] at h
      obtain ⟨i, hi⟩ := List.mem_iff_getElem?.1 he
      have hlt := (List.getElem?_eq_some_iff.1 hi).1
      refine h i e ((List.getElem?_append_left hlt).trans hi)
        ⟨s.executions.length, ⟨x, w⟩, hlt, List.getElem?_concat_length, hid.symm⟩ ?_
      show owner q e.item.id = some e.workerId
      rw [howner, if_pos hid, hw]
  | report i r now later => trivial

theorem known (hQ : Q.Fences Inv has owner) : ∀ acts, (after Q acts).Known Inv has
  | [] => ⟨hQ.init, fun _ he => absurd he List.not_mem_nil⟩
  | a :: past => (known hQ past).step hQ a

/-- **A run is fenced throughout just when each of its acts is allowed.** -/
theorem fenced_after_iff (hQ : Q.Fences Inv has owner) (acts : List (WorkerAct V)) :
    (∀ past, past <:+ acts → (after Q past).Fenced) ↔
      ∀ a past, (a :: past) <:+ acts → (after Q past).Allows a := by
  constructor
  · intro h a past hs
    have hd := (fenced_iff hQ (known hQ (a :: past)).queue).1 (h _ hs)
    exact hd.allows hQ (known hQ past)
  · intro h past hs
    refine (fenced_iff hQ (known hQ past).queue).2 ?_
    induction past with
    | nil => exact fun i e he => by (cases he)
    | cons a past ih =>
      have hd := ih ((List.suffix_cons a past).trans hs)
      exact hd.step hQ (known hQ past) (h a past hs)

/-- The `run_once` of a superseded execution reports its result, then the conflict that it
    meets. -/
theorem runOnce_superseded (h : s.Fenced) {i : Nat} {e : Execution V}
    (he : s.executions[i]? = some e) (hsup : s.Superseded i e) (result : Dict String V)
    (str : Exn → String) (now later : Time) :
    DistributedWorker.runOnce (.returned result) str
      (fun r => (Q.step ⟨r.call e, now, later⟩ s.queue).1) =
      [.complete result, .fail (str (.conflict .leaseNotOwned)) true] := by
  obtain ⟨hr, -⟩ := h i e he hsup (.complete result) now later
  rcases hr with hr | ⟨⟨_, _, _, hc⟩, -⟩
  · simp only [DistributedWorker.runOnce, hr, Exn.isException, if_true]
  · cases hc

end

end Workers

/-! ## The queue in memory -/

namespace InMemoryWorkQueue

def owner (q : InMemoryWorkQueue V) (id : String) : Option String :=
  (q.items.get id).bind fun x => if x.status = .leased then x.leaseOwner else none

/-- The items are stored under their ids. -/
structure Filed (q : InMemoryWorkQueue V) : Prop where
  nodup : q.items.keys.Nodup
  ids : ∀ {id x}, q.items.get id = some x → x.id = id

section
variable {q : InMemoryWorkQueue V}

theorem Filed.get_of_mem (h : q.Filed) {x : WorkItem V} (hx : x ∈ q.items.values) :
    q.items.get x.id = some x := by
  obtain ⟨⟨id, y⟩, hm, rfl⟩ := List.mem_map.1 hx
  have hget : q.items.get id = some y := Dict.get_of_mem h.nodup hm
  rw [h.ids hget]
  exact hget

theorem Filed.set (h : q.Filed) (x : WorkItem V) (d : Dict (String × String) String) :
    Filed ⟨q.items.set x.id x, d⟩ where
  nodup := Dict.nodup_keys_set _ _ h.nodup
  ids {id y} hy := by
    rw [Dict.get_set] at hy
    split at hy
    · rename_i he
      cases hy
      exact he.symm
    · exact h.ids hy

theorem owner_set (x : WorkItem V) (d : Dict (String × String) String) (id : String) :
    owner ⟨q.items.set x.id x, d⟩ id =
      if id = x.id then (if x.status = .leased then x.leaseOwner else none) else q.owner id := by
  simp only [owner, Dict.get_set]
  split <;> rfl

theorem owner_eq_some {id w : String} :
    q.owner id = some w ↔ ∃ x, q.items.get id = some x ∧ x.owned w := by
  simp only [owner, Option.bind_eq_some_iff, WorkItem.owned, decide_eq_true_eq]
  refine exists_congr fun x => and_congr_right fun _ => ?_
  split <;> simp [*]

theorem owned_error {id w : String} (ho : q.owner id ≠ some w) :
    q.owned id w = .error (.conflict .leaseNotOwned) := by
  unfold InMemoryWorkQueue.owned
  rcases hx : q.items.get id with _ | x
  · rfl
  · have how : ¬ x.owned w := fun how => ho (owner_eq_some.2 ⟨x, hx, how⟩)
    simp [how]

/-- What an assignment leaves of the lease. -/
theorem owned_assignment {c : TimedCall V} {id w : String} {f : WorkItem V → WorkItem V}
    (hc : c.assignment = some (id, w, f)) (x : WorkItem V) {v : String} (h : (f x).owned v) :
    x.owned v := by
  obtain ⟨call, now, later⟩ := c
  cases call with
  | enqueue | claim => cases hc
  | renew => cases hc; exact h
  | complete => cases hc; simp [WorkItem.owned, WorkItem.complete] at h
  | fail => cases hc; simp [WorkItem.owned, WorkItem.fail] at h

theorem assignment_id {c : TimedCall V} {id w : String} {f : WorkItem V → WorkItem V}
    (hc : c.assignment = some (id, w, f)) (x : WorkItem V) : (f x).id = x.id := by
  obtain ⟨call, now, later⟩ := c
  cases call with
  | enqueue | claim => cases hc
  | renew | complete | fail => cases hc; rfl

theorem step_assignment {c : TimedCall V} {id w : String} {f : WorkItem V → WorkItem V}
    (hc : c.assignment = some (id, w, f)) (q : InMemoryWorkQueue V) :
    step c q = q.update id w c.accepted f := by
  obtain ⟨call, now, later⟩ := c
  cases call with
  | enqueue | claim => cases hc
  | renew | complete | fail => cases hc; rfl

/-- A call sets at most one item. -/
theorem step_set (c : TimedCall V) (q : InMemoryWorkQueue V) :
    (step c q).2 = q ∨ ∃ x d, (step c q).2 = ⟨q.items.set x.id x, d⟩ := by
  rcases hc : c.assignment with _ | ⟨id, w, f⟩
  · obtain ⟨call, now, later⟩ := c
    cases call with
    | enqueue x =>
      simp only [step, InMemoryWorkQueue.enqueue]
      split
      · left
        split <;> rfl
      · exact .inr ⟨x, _, rfl⟩
    | claim w secs =>
      simp only [step, InMemoryWorkQueue.claim]
      split
      · exact .inl rfl
      · exact .inr ⟨_, _, rfl⟩
    | renew | complete | fail => cases hc
  · rw [step_assignment hc]
    unfold InMemoryWorkQueue.update
    split
    · exact .inr ⟨_, _, rfl⟩
    · exact .inl rfl

theorem Filed.step (h : q.Filed) (c : TimedCall V) : (step c q).2.Filed := by
  rcases step_set c q with he | ⟨x, d, he⟩
  · rw [he]
    exact h
  · rw [he]
    exact h.set x d

theorem mem_keys_step {c : TimedCall V} {id : String} (h : id ∈ q.items.keys) :
    id ∈ (InMemoryWorkQueue.step c q).2.items.keys := by
  rcases step_set c q with he | ⟨x, d, he⟩
  · rw [he]
    exact h
  · rw [he]
    exact Dict.mem_keys_set.2 (.inr h)

theorem owner_enqueue {c : TimedCall V} {x : WorkItem V} (hc : c.call = .enqueue x) :
    (step c q).2 = q ∧ (step c q).1 ≠ .ok (.enqueued x true) ∨
    (step c q).1 = .ok (.enqueued x true) ∧ ∀ id w, (step c q).2.owner id = some w ↔
      if id = x.id then x.owned w = true else q.owner id = some w := by
  rw [step_enqueue hc]
  unfold InMemoryWorkQueue.enqueue
  split
  · left
    split <;> exact ⟨rfl, nofun⟩
  · refine .inr ⟨rfl, fun id w => ?_⟩
    rw [owner_set]
    split
    · simp only [WorkItem.owned, decide_eq_true_eq]
      split <;> simp [*]
    · rfl

theorem Filed.owner_claim (h : q.Filed) {c : TimedCall V} {w : String} {secs : Int}
    (hc : c.call = .claim w secs) :
    (InMemoryWorkQueue.step c q).2 = q ∧
      (∀ x, (InMemoryWorkQueue.step c q).1 ≠ .ok (.claimed (some x))) ∨
    ∃ x, (InMemoryWorkQueue.step c q).1 = .ok (.claimed (some x)) ∧ x.id ∈ q.items.keys ∧
      ∀ id, (InMemoryWorkQueue.step c q).2.owner id =
        if id = x.id then some w else q.owner id := by
  obtain ⟨call, now, later⟩ := c
  obtain rfl : call = .claim w secs := hc
  simp only [InMemoryWorkQueue.step, InMemoryWorkQueue.claim]
  split
  · exact .inl ⟨rfl, by simp⟩
  · rename_i x hx
    have hm := (List.mem_filter.1 (earliest_mem hx)).1
    refine .inr ⟨x.claim now w secs, rfl, ?_, fun id => owner_set _ _ _⟩
    exact List.mem_map_of_mem (Dict.mem_of_get (h.get_of_mem hm))

theorem Filed.owner_report (h : q.Filed) {c : TimedCall V} {id w : String}
    {f : WorkItem V → WorkItem V} (hc : c.assignment = some (id, w, f))
    (ho : q.owner id = some w) :
    (InMemoryWorkQueue.step c q).1 = .ok c.accepted ∧
      ∀ j v, (InMemoryWorkQueue.step c q).2.owner j = some v → q.owner j = some v := by
  obtain ⟨x, hx, rfl⟩ : ∃ x, q.items.get x.id = some x ∧ x.id = id := by
    obtain ⟨x, hx, -⟩ := owner_eq_some.1 ho
    have hid := h.ids hx
    exact ⟨x, hid ▸ hx, hid⟩
  have how : x.owned w := by
    obtain ⟨y, hy, how⟩ := owner_eq_some.1 ho
    rw [hx] at hy
    cases hy
    exact how
  rw [step_assignment hc]
  simp only [InMemoryWorkQueue.update, InMemoryWorkQueue.owned, hx, how, if_true, true_and]
  intro j v hj
  obtain ⟨y, hy, hv⟩ := owner_eq_some.1 hj
  simp only [InMemoryWorkQueue.put, Dict.get_set, assignment_id hc] at hy
  split at hy
  · rename_i hjx
    cases hy
    exact owner_eq_some.2 ⟨x, hjx ▸ hx, owned_assignment hc x hv⟩
  · exact owner_eq_some.2 ⟨y, hy, hv⟩

theorem owner_refuse {c : TimedCall V} {id w : String} {f : WorkItem V → WorkItem V}
    (hc : c.assignment = some (id, w, f)) (ho : q.owner id ≠ some w) :
    c.Refused (step c q).1 ∧ (step c q).2 = q := by
  rw [step_assignment hc]
  simp only [InMemoryWorkQueue.update, owned_error ho, and_true]
  exact .inl rfl

end

theorem fences : (queue V).Fences Filed (fun q id => id ∈ q.items.keys) owner where
  init := ⟨List.nodup_nil, fun h => by (cases h)⟩
  step h := h.step _
  keeps _ h := mem_keys_step h
  enqueue _ hc := (owner_enqueue hc).imp_right fun h => ⟨h.1, fun id _ => h.2 id⟩
  claim h hc := h.owner_claim hc
  report h hc ho := h.owner_report hc ho
  refuse _ hc ho := owner_refuse hc ho

end InMemoryWorkQueue

/-! ## The queue in PostgreSQL -/

namespace PostgresWorkQueue

/-- The owner by the columns of the row. -/
def lessee (r : WorkRow V) : Option String := if r.status = "leased" then r.leaseOwner else none

def owner (rows : List (WorkRow V)) (id : String) : Option String :=
  (rows.find? fun r => r.id = id).bind lessee

/-- The JSON of a row is that of an item of the same id. -/
def Dumped (r : WorkRow V) : Prop := ∃ x : WorkItem V, r.item = x.dump ∧ x.id = r.id

def Stored (rows : List (WorkRow V)) (id : String) : Prop := ∃ r ∈ rows, r.id = id

structure Rows (rows : List (WorkRow V)) : Prop where
  nodup : (rows.map fun r => r.id).Nodup
  dumped : ∀ r ∈ rows, Dumped r

section
variable {rows : List (WorkRow V)}

/-! What the `SET` clauses leave as it is. -/

theorem Dumped.claim {r : WorkRow V} (h : Dumped r) (now : Time) (w : String) (secs : Int) :
    Dumped (r.claim now w secs) := by
  obtain ⟨x, hx, hid⟩ := h
  refine ⟨{ x with status := .leased, leaseOwner := some w, leaseExpiresAt := some (now + secs)
                   attempts := r.attempts + 1 }, ?_, hid⟩
  simp [WorkRow.claim, hx, WorkItem.dump, Dict.set, Json.nullable, WorkStatus.value]

theorem Dumped.renew {r : WorkRow V} (h : Dumped r) (now : Time) (secs : Int) :
    Dumped (r.renew now secs) := by
  obtain ⟨x, hx, hid⟩ := h
  refine ⟨{ x with leaseExpiresAt := some (now + secs) }, ?_, hid⟩
  simp [WorkRow.renew, hx, WorkItem.dump, Dict.set, Json.nullable]

theorem Dumped.complete {r : WorkRow V} (h : Dumped r) (now : Time) (result : Dict String V) :
    Dumped (r.complete now result) := by
  obtain ⟨x, hx, hid⟩ := h
  refine ⟨x.complete now result, ?_, hid⟩
  simp [WorkRow.complete, WorkItem.complete, hx, WorkItem.dump, Dict.set, Json.nullable,
    WorkStatus.value]

theorem Dumped.fail {r : WorkRow V} (h : Dumped r) (now : Time) (status error : String) :
    Dumped (r.fail now status error) := by
  obtain ⟨x, hx, hid⟩ := h
  have hstatus : ∃ t : WorkStatus, t.value = r.failStatus status := by
    unfold WorkRow.failStatus
    split
    · exact ⟨.pending, rfl⟩
    · exact ⟨.failed, rfl⟩
  obtain ⟨t, ht⟩ := hstatus
  refine ⟨{ x with error := some error, status := t, leaseOwner := none, leaseExpiresAt := none
                   updatedAt := now }, ?_, hid⟩
  simp [WorkRow.fail, hx, WorkItem.dump, Dict.set, Json.nullable, ht]

theorem Rows.eq_of_id (h : Rows rows) {r r' : WorkRow V} (hr : r ∈ rows) (hr' : r' ∈ rows)
    (hid : r.id = r'.id) : r = r' :=
  List.inj_on_of_nodup_map h.nodup hr hr' hid

theorem Rows.find (h : Rows rows) {r : WorkRow V} (hr : r ∈ rows) :
    rows.find? (fun w => w.id = r.id) = some r := by
  rcases hf : rows.find? (fun w => w.id = r.id) with _ | w
  · exact absurd (List.find?_eq_none.1 hf r hr) (by simp)
  · have hw := List.find?_some hf
    exact hf.trans (congrArg some
      (h.eq_of_id (List.mem_of_find?_eq_some hf) hr (of_decide_eq_true hw)))

theorem Rows.update (h : Rows rows) {cond : WorkRow V → Bool} {f : WorkRow V → WorkRow V}
    (hid : ∀ r, (f r).id = r.id) (hf : ∀ r, Dumped r → Dumped (f r)) :
    Rows (update rows cond f).2 := by
  refine ⟨?_, fun r hr => ?_⟩
  · have hmap : ((PostgresWorkQueue.update rows cond f).2.map fun r => r.id) =
        rows.map fun r => r.id := by
      simp only [PostgresWorkQueue.update, List.map_map]
      refine List.map_congr_left fun r _ => ?_
      simp only [Function.comp]
      split
      · exact hid r
      · rfl
    rw [hmap]
    exact h.nodup
  · obtain ⟨r₀, hr₀, rfl⟩ := List.mem_map.1 hr
    split
    · exact hf _ (h.dumped r₀ hr₀)
    · exact h.dumped r₀ hr₀

/-- The owners after a statement that leaves the ids alone. -/
theorem owner_update {cond : WorkRow V → Bool} {f : WorkRow V → WorkRow V}
    (hid : ∀ r, (f r).id = r.id) (id : String) :
    owner (update rows cond f).2 id =
      (rows.find? fun r => r.id = id).bind fun r => lessee (if cond r then f r else r) := by
  have hcomp : ((fun r : WorkRow V => decide (r.id = id)) ∘ fun r => if cond r then f r else r) =
      fun r => decide (r.id = id) := by
    funext r
    simp only [Function.comp]
    split
    · rw [hid]
    · rfl
  simp only [owner, PostgresWorkQueue.update, List.find?_map, hcomp, Option.bind_map]
  rfl

theorem owner_eq_some (h : Rows rows) {id w : String} :
    owner rows id = some w ↔ ∃ r ∈ rows, r.owned id w := by
  simp only [owner, Option.bind_eq_some_iff, lessee, WorkRow.owned, decide_eq_true_eq]
  constructor
  · rintro ⟨r, hr, hw⟩
    split at hw
    · rename_i hs
      have hid := List.find?_some hr
      exact ⟨r, List.mem_of_find?_eq_some hr, of_decide_eq_true hid, hw, hs⟩
    · cases hw
  · rintro ⟨r, hr, rfl, hw, hs⟩
    exact ⟨r, h.find hr, by rw [if_pos hs, hw]⟩

/-- A statement on the row that a worker owns updates one row if there is one, else none. -/
theorem Rows.count (h : Rows rows) {id w : String} :
    rows.countP (WorkRow.owned id w) = if owner rows id = some w then 1 else 0 := by
  split
  · rename_i ho
    obtain ⟨r, hr, how⟩ := (owner_eq_some h).1 ho
    have hcount := List.count_eq_one_of_mem h.nodup (List.mem_map_of_mem hr)
    rw [List.count, List.countP_map] at hcount
    rw [← hcount]
    have hid : r.id = id := (of_decide_eq_true how).1
    refine List.countP_congr fun r' hr' => ?_
    simp only [Function.comp, beq_iff_eq]
    constructor
    · exact fun how' => (of_decide_eq_true how').1.trans hid.symm
    · intro he
      rw [h.eq_of_id hr' hr he]
      exact how
  · rename_i ho
    refine List.countP_eq_zero.2 fun r hr how => ho ((owner_eq_some h).2 ⟨r, hr, how⟩)

/-! The calls. -/

/-- The statement of a report. -/
theorem step_assignment (scan : List (WorkRow V) → List (WorkRow V)) {c : TimedCall V}
    {id w : String} {g : WorkItem V → WorkItem V} (hc : c.assignment = some (id, w, g)) :
    ∃ f : WorkRow V → WorkRow V, (∀ r, (f r).id = r.id) ∧ (∀ r, Dumped r → Dumped (f r)) ∧
      (∀ r v, lessee (f r) = some v → lessee r = some v) ∧ ∀ rows,
      (step scan c rows).2 = (update rows (WorkRow.owned id w) f).2 ∧
      (rows.countP (WorkRow.owned id w) = 1 → (step scan c rows).1 = .ok c.accepted) ∧
      (rows.countP (WorkRow.owned id w) = 0 → c.Refused (step scan c rows).1) := by
  obtain ⟨call, now, later⟩ := c
  cases call with
  | enqueue | claim => cases hc
  | renew id w secs =>
    cases hc
    refine ⟨WorkRow.renew now secs, fun _ => rfl, fun _ h => h.renew now secs, fun _ _ h => h,
      fun rows => ⟨rfl, fun h => ?_, fun h => .inr ⟨⟨id, w, secs, rfl⟩, ?_⟩⟩⟩
    · simp [step, PostgresWorkQueue.renew, PostgresWorkQueue.update, h, TimedCall.accepted]
    · simp [step, PostgresWorkQueue.renew, PostgresWorkQueue.update, h]
  | complete id w result =>
    cases hc
    refine ⟨WorkRow.complete now result, fun _ => rfl, fun _ h => h.complete now result,
      fun r v h => ?_, fun rows => ⟨rfl, fun h => ?_, fun h => .inl ?_⟩⟩
    · simp [lessee, WorkRow.complete] at h
    · simp [step, PostgresWorkQueue.complete, one, PostgresWorkQueue.update, h,
        TimedCall.accepted]
    · simp [step, PostgresWorkQueue.complete, one, PostgresWorkQueue.update, h]
  | fail id w error retry =>
    cases hc
    refine ⟨WorkRow.fail now (if retry then "pending" else "failed") error, fun _ => rfl,
      fun _ h => h.fail now _ error, fun r v h => ?_,
      fun rows => ⟨rfl, fun h => ?_, fun h => .inl ?_⟩⟩
    · have hnone : lessee (r.fail now (if retry then "pending" else "failed") error) = none :=
        ite_self none
      rw [hnone] at h
      cases h
    · simp [step, PostgresWorkQueue.fail, one, PostgresWorkQueue.update, h, TimedCall.accepted]
    · simp [step, PostgresWorkQueue.fail, one, PostgresWorkQueue.update, h]

/-- A statement whose condition no row meets. -/
theorem update_still {cond : WorkRow V → Bool} (f : WorkRow V → WorkRow V)
    (h : rows.countP cond = 0) : (update rows cond f).2 = rows := by
  refine (List.map_congr_left fun r hr => ?_).trans rows.map_id
  exact if_neg (List.countP_eq_zero.1 h r hr)

theorem Rows.owner_report (h : Rows rows) {scan : List (WorkRow V) → List (WorkRow V)}
    {c : TimedCall V} {id w : String} {g : WorkItem V → WorkItem V}
    (hc : c.assignment = some (id, w, g)) (ho : owner rows id = some w) :
    (step scan c rows).1 = .ok c.accepted ∧
      ∀ j v, owner (step scan c rows).2 j = some v → owner rows j = some v := by
  obtain ⟨f, hid, -, hf, hstep⟩ := step_assignment scan hc
  obtain ⟨hrows, hok, -⟩ := hstep rows
  refine ⟨hok (by rw [h.count, if_pos ho]), fun j v hj => ?_⟩
  rw [hrows, owner_update hid] at hj
  obtain ⟨r, hr, hv⟩ := Option.bind_eq_some_iff.1 hj
  refine Option.bind_eq_some_iff.2 ⟨r, hr, ?_⟩
  split at hv
  · exact hf r v hv
  · exact hv

theorem Rows.owner_refuse (h : Rows rows) {scan : List (WorkRow V) → List (WorkRow V)}
    {c : TimedCall V} {id w : String} {g : WorkItem V → WorkItem V}
    (hc : c.assignment = some (id, w, g)) (ho : owner rows id ≠ some w) :
    c.Refused (step scan c rows).1 ∧ (step scan c rows).2 = rows := by
  obtain ⟨f, -, -, -, hstep⟩ := step_assignment scan hc
  obtain ⟨hrows, -, href⟩ := hstep rows
  have hzero : rows.countP (WorkRow.owned id w) = 0 := by rw [h.count, if_neg ho]
  exact ⟨href hzero, hrows.trans (update_still f hzero)⟩

/-- A call leaves the table alone, sends an `UPDATE` or inserts a row of a new id. -/
theorem step_rows (scan : List (WorkRow V) → List (WorkRow V)) (c : TimedCall V)
    (rows : List (WorkRow V)) :
    (step scan c rows).2 = rows ∨
    (∃ cond f, (∀ r : WorkRow V, (f r).id = r.id) ∧ (∀ r, Dumped r → Dumped (f r)) ∧
      (step scan c rows).2 = (update rows cond f).2) ∨
    ∃ x now, (∀ r ∈ rows, r.id ≠ x.id) ∧ (step scan c rows).2 = rows ++ [inserted now x] := by
  rcases hc : c.assignment with _ | ⟨id, w, g⟩
  · obtain ⟨call, now, later⟩ := c
    cases call with
    | enqueue x =>
      simp only [step, PostgresWorkQueue.enqueue]
      split
      · left
        split <;> rfl
      · split
        · exact .inl rfl
        · rename_i hany
          refine .inr (.inr ⟨x, now, fun r hr hid => hany ?_, rfl⟩)
          exact List.any_eq_true.2 ⟨r, hr, decide_eq_true hid⟩
    | claim w secs =>
      simp only [step, PostgresWorkQueue.claim]
      split
      · exact .inl rfl
      · rename_i r _
        refine .inr (.inl ⟨fun r' => r'.id = r.id, WorkRow.claim now w secs, fun _ => rfl,
          fun _ h => h.claim now w secs, ?_⟩)
        split <;> rfl
    | renew | complete | fail => cases hc
  · obtain ⟨f, hid, hd, -, hstep⟩ := step_assignment scan hc
    exact .inr (.inl ⟨_, f, hid, hd, (hstep rows).1⟩)

theorem Rows.step (h : Rows rows) {scan : List (WorkRow V) → List (WorkRow V)}
    (c : TimedCall V) : Rows (PostgresWorkQueue.step scan c rows).2 := by
  rcases step_rows scan c rows with he | ⟨cond, f, hid, hd, he⟩ | ⟨x, now, hx, he⟩
  · rw [he]
    exact h
  · rw [he]
    exact h.update hid hd
  · rw [he]
    constructor
    · rw [List.map_append, List.nodup_append]
      refine ⟨h.nodup, List.nodup_singleton _, fun i hi j hj hij => ?_⟩
      obtain ⟨r, hr, rfl⟩ := List.mem_map.1 hi
      exact hx r hr (hij.trans (List.mem_singleton.1 hj))
    · intro r hr
      rcases List.mem_append.1 hr with hr | hr
      · exact h.dumped r hr
      · rw [List.mem_singleton.1 hr]
        exact ⟨x, rfl, rfl⟩

theorem Stored.step {scan : List (WorkRow V) → List (WorkRow V)} {c : TimedCall V} {id : String}
    (h : Stored rows id) : Stored (PostgresWorkQueue.step scan c rows).2 id := by
  obtain ⟨r, hr, hrid⟩ := h
  rcases step_rows scan c rows with he | ⟨cond, f, hid, -, he⟩ | ⟨x, now, -, he⟩
  · rw [he]
    exact ⟨r, hr, hrid⟩
  · rw [he]
    refine ⟨_, List.mem_map_of_mem hr, ?_⟩
    split
    · exact (hid r).trans hrid
    · exact hrid
  · rw [he]
    exact ⟨r, List.mem_append_left _ hr, hrid⟩

theorem owner_enqueue {scan : List (WorkRow V) → List (WorkRow V)} {c : TimedCall V}
    {x : WorkItem V} (hc : c.call = .enqueue x) :
    (step scan c rows).2 = rows ∧ (step scan c rows).1 ≠ .ok (.enqueued x true) ∨
    (step scan c rows).1 = .ok (.enqueued x true) ∧ ∀ id, Stored rows id → ∀ w,
      owner (step scan c rows).2 id = some w ↔
        if id = x.id then x.owned w = true else owner rows id = some w := by
  obtain ⟨call, now, later⟩ := c
  obtain rfl : call = .enqueue x := hc
  simp only [step, PostgresWorkQueue.enqueue]
  split
  · left
    split <;> exact ⟨rfl, nofun⟩
  · split
    · exact .inl ⟨rfl, nofun⟩
    · rename_i hany
      refine .inr ⟨rfl, fun id ⟨r, hr, hid⟩ w => ?_⟩
      have hne : id ≠ x.id := fun he =>
        hany (List.any_eq_true.2 ⟨r, hr, decide_eq_true (hid.trans he)⟩)
      have hsome : (rows.find? fun r => r.id = id).isSome :=
        List.find?_isSome.2 ⟨r, hr, decide_eq_true hid⟩
      rw [if_neg hne, owner, List.find?_append, Option.or_of_isSome hsome]
      rfl

theorem Rows.owner_claim (h : Rows rows) {scan : List (WorkRow V) → List (WorkRow V)}
    (hscan : ∀ rows, (scan rows).Perm rows) {c : TimedCall V} {w : String} {secs : Int}
    (hc : c.call = .claim w secs) :
    (PostgresWorkQueue.step scan c rows).2 = rows ∧
      (∀ x, (PostgresWorkQueue.step scan c rows).1 ≠ .ok (.claimed (some x))) ∨
    ∃ x, (PostgresWorkQueue.step scan c rows).1 = .ok (.claimed (some x)) ∧
      Stored rows x.id ∧ ∀ id, owner (PostgresWorkQueue.step scan c rows).2 id =
        if id = x.id then some w else owner rows id := by
  obtain ⟨call, now, later⟩ := c
  obtain rfl : call = .claim w secs := hc
  simp only [PostgresWorkQueue.step, PostgresWorkQueue.claim]
  split
  · exact .inl ⟨rfl, by simp⟩
  · rename_i r hr
    have hm : r ∈ rows := (hscan rows).mem_iff.1 (List.mem_filter.1 (earliest_mem hr)).1
    obtain ⟨y, hy, hid⟩ := (h.dumped r hm).claim now w secs
    have hid : y.id = r.id := hid
    have hval : WorkItem.validate (r.claim now w secs).item = some y := by
      rw [hy, WorkItem.validate_dump]
    refine .inr ⟨y, by rw [hval], ⟨r, hm, hid.symm⟩, fun id => ?_⟩
    rw [hval]
    show owner (PostgresWorkQueue.update rows _ _).2 id = _
    rw [owner_update (f := WorkRow.claim now w secs) fun _ => rfl, hid]
    by_cases hr : id = r.id
    · rw [hr, h.find hm, if_pos rfl]
      simp [lessee, WorkRow.claim]
    · rw [if_neg hr, owner]
      refine Option.bind_congr fun r' hf => ?_
      have hr' := List.find?_some hf
      rw [if_neg]
      exact fun he => hr ((of_decide_eq_true hr').symm.trans (of_decide_eq_true he))

end

theorem fences {scan : List (WorkRow V) → List (WorkRow V)}
    (hscan : ∀ rows, (scan rows).Perm rows) :
    (queue scan).Fences Rows Stored owner where
  init := ⟨List.nodup_nil, fun _ h => by (cases h)⟩
  step h := h.step _
  keeps _ h := h.step
  enqueue _ hc := owner_enqueue hc
  claim h hc := h.owner_claim hscan hc
  report h hc ho := h.owner_report hc ho
  refuse h hc ho := h.owner_refuse hc ho

end PostgresWorkQueue

/-! ## Fencing -/

/-- **Superseded executions are fenced off** in every state of a run of either queue just when
    no worker gets an item by a claim that it has claimed before, and no item that takes the
    place of another one is leased to a superseded execution of that. -/
theorem fencing_iff {scan : List (WorkRow V) → List (WorkRow V)}
    (hscan : ∀ rows, (scan rows).Perm rows) (acts : List (WorkerAct V)) :
    ((∀ past, past <:+ acts → (Workers.after (InMemoryWorkQueue.queue V) past).Fenced) ↔
      ∀ a past, (a :: past) <:+ acts →
        (Workers.after (InMemoryWorkQueue.queue V) past).Allows a) ∧
    ((∀ past, past <:+ acts → (Workers.after (PostgresWorkQueue.queue scan) past).Fenced) ↔
      ∀ a past, (a :: past) <:+ acts →
        (Workers.after (PostgresWorkQueue.queue scan) past).Allows a) :=
  ⟨Workers.fenced_after_iff InMemoryWorkQueue.fences acts,
    Workers.fenced_after_iff (PostgresWorkQueue.fences hscan) acts⟩

/-- A worker claims an item. -/
def claimed : List (WorkerAct Unit) := [.claim "w" 1 0, .enqueue sampleThree 0]

theorem fencing_iff_sample :
    (Workers.after (PostgresWorkQueue.queue (V := Unit) id) claimed).Fenced := by
  refine (@fencing_iff Unit id (fun _ => .refl _) claimed).2.2 (fun a past hs => ?_) claimed
    List.suffix_rfl
  rcases List.suffix_cons_iff.1 hs with he | hs
  · cases he
    exact fun x _ e he => by (cases he)
  · rcases List.suffix_cons_iff.1 hs with he | hs
    · cases he
      exact fun _ i e he => by (cases he)
    · exact absurd (List.suffix_nil.1 hs) (List.cons_ne_nil _ _)

/-- The lease lapses, and the same worker claims the item again. -/
def reclaimed : List (WorkerAct Unit) := .claim "w" 1 2 :: claimed

theorem Workers.not_disowned {Q : WorkQueue V} {s : Workers Q}
    {owner : Q.State → String → Option String} (id w : String)
    (hs : s.executions.map (fun e => (e.item.id, e.workerId)) = [(id, w), (id, w)])
    (ho : owner s.queue id = some w) : ¬ s.Disowned owner := by
  intro h
  obtain ⟨e, l, he, hpair, hl⟩ := List.map_eq_cons_iff.1 hs
  obtain ⟨e', l', rfl, hpair', -⟩ := List.map_eq_cons_iff.1 hl
  cases hpair
  have hid : e'.item.id = e.item.id := congrArg Prod.fst hpair'
  exact h 0 e (by rw [he]; rfl) ⟨1, e', by omega, by rw [he]; rfl, hid⟩ ho

/-- What the first execution then reports is taken for a report of the second one. -/
theorem fencing_lost :
    ¬ (∀ acts, (Workers.after (InMemoryWorkQueue.queue Unit) acts).Fenced) ∧
    ¬ ∀ acts, (Workers.after (PostgresWorkQueue.queue (V := Unit) id) acts).Fenced := by
  constructor
  · intro h
    have hQ := InMemoryWorkQueue.fences (V := Unit)
    exact Workers.not_disowned "i" "w" (by decide +kernel) (by decide +kernel)
      ((Workers.fenced_iff hQ (Workers.known hQ reclaimed).queue).1 (h _))
  · intro h
    have hQ := @PostgresWorkQueue.fences Unit id fun _ => .refl _
    exact Workers.not_disowned "i" "w" (by decide +kernel) (by decide +kernel)
      ((Workers.fenced_iff hQ (Workers.known hQ reclaimed).queue).1 (h _))

end TracciaRuntime
