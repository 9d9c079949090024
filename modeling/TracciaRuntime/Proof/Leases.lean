/-
  Traccia Runtime formalization — the leases of the work queues.

  * `Answers`: what a call of either queue returns and does to the stored items;
    `InMemoryWorkQueue.Inv.serves` and `PostgresWorkQueue.served`: the queues do no more;
  * `Answers.moved`: seen from outside, a call is a move of the ledger of leases;
  * `leases_safe`: the queue in memory hands out no item under a running lease and none more
    often than it may, and leaves finished items alone;
  * `stale_recovered`: an item whose lease has lapsed is recovered, unless its last allowed
    attempt is the one that was not reported.
-/
import Mathlib.Algebra.Order.Ring.Rat
import TracciaRuntime.Distributed.Queue

namespace TracciaRuntime

open Py

variable {V : Type}

/-! ## What a call does -/

/-- Equal up to `updated_at`. -/
def WorkItem.Alike (x y : WorkItem V) : Prop := ∃ t, y = { x with updatedAt := t }

theorem WorkItem.Alike.rfl {x : WorkItem V} : x.Alike x := ⟨x.updatedAt, Eq.refl _⟩

/-- The item without the fields that the methods assign. -/
def WorkItem.fixed (x : WorkItem V) : WorkItem V :=
  { x with status := .pending, attempts := 0, leaseOwner := none, leaseExpiresAt := none
           result := none, error := none, updatedAt := 0 }

/-- An item is leased just when it has an owner and when it has an expiry. -/
structure WorkItem.Proper (x : WorkItem V) : Prop where
  owner : x.status = .leased ↔ x.leaseOwner.isSome
  expires : x.status = .leased ↔ x.leaseExpiresAt.isSome

/-- The item of the same id replaced. -/
def alter (l : List (WorkItem V)) (x : WorkItem V) : List (WorkItem V) :=
  l.map fun y => if y.id = x.id then x else y

/-- The assignment of a call to the item that its worker owns. -/
def TimedCall.assignment (c : TimedCall V) : Option (String × String × (WorkItem V → WorkItem V)) :=
  match c.call with
  | .renew itemId w secs => some (itemId, w, fun x => x.renew c.now c.later secs)
  | .complete itemId w result => some (itemId, w, fun x => x.complete c.now result)
  | .fail itemId w error retry => some (itemId, w, fun x => x.fail c.now error retry)
  | _ => none

/-- The reply to a call on an item that its worker owns, and to one on any other item. -/
def TimedCall.accepted (c : TimedCall V) : QueueReply V :=
  match c.call with
  | .renew .. => .renewed true
  | _ => .done

def TimedCall.Refused (c : TimedCall V) (r : Except Exn (QueueReply V)) : Prop :=
  r = .error (.conflict .leaseNotOwned) ∨
    (∃ itemId w secs, c.call = .renew itemId w secs) ∧ r = .ok (.renewed false)

/-- A call of a queue with these items: `claim` goes by `rank`, and `enqueue` takes an item for
    another one by `dup`. -/
inductive Answers (rank : WorkItem V → Time × Time) (dup : WorkItem V → WorkItem V → Prop)
    (l : List (WorkItem V)) (c : TimedCall V) :
    Except Exn (QueueReply V) → List (WorkItem V) → Prop
  | present {x y : WorkItem V} : c.call = .enqueue x → y ∈ l → dup y x →
      Answers rank dup l c (.ok (.enqueued y false)) l
  | insert {x : WorkItem V} : c.call = .enqueue x → (∀ y ∈ l, ¬ dup y x) →
      Answers rank dup l c (.ok (.enqueued x true)) (l ++ [x])
  | claim {w : String} {secs : Int} {x x' : WorkItem V} : c.call = .claim w secs → x ∈ l →
      x.eligible c.now → (∀ y ∈ l, y.eligible c.now → WorkItem.before (rank x) (rank y)) →
      (x.claim c.now w secs).Alike x' →
      Answers rank dup l c (.ok (.claimed (some x'))) (alter l x')
  | idle {w : String} {secs : Int} : c.call = .claim w secs →
      (∀ y ∈ l, y.eligible c.now = false) → Answers rank dup l c (.ok (.claimed none)) l
  | update {itemId w : String} {f : WorkItem V → WorkItem V} {x x' : WorkItem V} :
      c.assignment = some (itemId, w, f) → x ∈ l → x.id = itemId → x.owned w →
      (f x).Alike x' → Answers rank dup l c (.ok c.accepted) (alter l x')
  | refuse {itemId w : String} {f : WorkItem V → WorkItem V} {r : Except Exn (QueueReply V)} :
      c.assignment = some (itemId, w, f) → (∀ x ∈ l, x.id = itemId → x.owned w = false) →
      c.Refused r → Answers rank dup l c r l

theorem earliest_mem {α : Type} {key : α → Time × Time} {l : List α} {a : α}
    (h : earliest key l = some a) : a ∈ l :=
  (List.perm_insertionSort _ l).mem_iff.1 (List.mem_of_mem_head? h)

theorem before_total (x y : Time × Time) : WorkItem.before x y ∨ WorkItem.before y x := by
  unfold WorkItem.before
  rcases lt_trichotomy x.1 y.1 with h | h | h
  · exact .inl (.inl h)
  · rcases le_total x.2 y.2 with h' | h'
    · exact .inl (.inr ⟨h, h'⟩)
    · exact .inr (.inr ⟨h.symm, h'⟩)
  · exact .inr (.inl h)

theorem before_trans {x y z : Time × Time} (h : WorkItem.before x y) (h' : WorkItem.before y z) :
    WorkItem.before x z := by
  rcases h with h | ⟨h, hx⟩ <;> rcases h' with h' | ⟨h', hy⟩
  · exact .inl (h.trans h')
  · exact .inl (h' ▸ h)
  · exact .inl (h ▸ h')
  · exact .inr ⟨h.trans h', hx.trans hy⟩

theorem earliest_before {α : Type} {key : α → Time × Time} {l : List α} {a : α}
    (h : earliest key l = some a) : ∀ b ∈ l, WorkItem.before (key a) (key b) := by
  intro b hb
  unfold earliest at h
  have : Std.Total fun x y : α => WorkItem.before (key x) (key y) := ⟨fun x y => before_total _ _⟩
  have : IsTrans α fun x y => WorkItem.before (key x) (key y) := ⟨fun _ _ _ => before_trans⟩
  have hs := List.pairwise_insertionSort (fun x y => WorkItem.before (key x) (key y)) l
  obtain ⟨rest, hrest⟩ := List.head?_eq_some_iff.1 h
  rw [hrest] at hs
  have hb' := (List.perm_insertionSort (fun x y => WorkItem.before (key x) (key y)) l).mem_iff.2 hb
  rw [hrest] at hb'
  rcases List.mem_cons.1 hb' with rfl | hb'
  · rcases before_total (key b) (key b) with h | h <;> exact h
  · exact (List.pairwise_cons.1 hs).1 b hb'

theorem earliest_none {α : Type} {key : α → Time × Time} {l : List α}
    (h : earliest key l = none) : l = [] := by
  unfold earliest at h
  have hp := List.perm_insertionSort (fun x y => WorkItem.before (key x) (key y)) l
  rw [List.head?_eq_none_iff.1 h] at hp
  exact hp.symm.eq_nil

theorem WorkItem.before_antisymm {x y : Time × Time} (h : before x y) (h' : before y x) : x = y := by
  rcases h with h | ⟨h, hx⟩ <;> rcases h' with h' | ⟨h', hy⟩
  · exact absurd h' (not_lt.2 h.le)
  · exact absurd h (by rw [h']; exact lt_irrefl _)
  · exact absurd h' (by rw [h]; exact lt_irrefl _)
  · exact Prod.ext h (le_antisymm hx hy)

/-! ## The queue in memory -/

/-- A known key keeps its place. -/
theorem set_eq_map {K W : Type} [DecidableEq K] {d : Dict K W} {k : K} (v : W)
    (hn : d.keys.Nodup) (hk : k ∈ d.keys) :
    d.set k v = d.map fun i => if i.1 = k then (i.1, v) else i := by
  induction d with
  | nil => cases hk
  | cons i d ih =>
    obtain ⟨k₀, v₀⟩ := i
    obtain ⟨h₁, h₂⟩ := List.nodup_cons.1 (show (k₀ :: Dict.keys d).Nodup from hn)
    by_cases h : k₀ = k
    · subst h
      have hd : d.map (fun i => if i.1 = k₀ then (i.1, v) else i) = d.map id := by
        refine List.map_congr_left fun i hi => if_neg ?_
        rintro rfl
        exact h₁ (List.mem_map_of_mem hi)
      simp [Dict.set, hd]
    · rcases List.mem_cons.1 hk with hk | hk
      · exact absurd hk.symm h
      · simp [Dict.set, h, ih h₂ hk]

namespace InMemoryWorkQueue

structure Inv (q : InMemoryWorkQueue V) : Prop where
  ids : ∀ i ∈ q.items, i.2.id = i.1
  nodup : q.items.keys.Nodup
  known : ∀ {k id}, q.deduplication.get k = some id → ∃ x, q.items.get id = some x ∧ x.key = k
  first : ∀ x ∈ q.items.values, x.id ≠ "" → q.deduplication.get x.key = some x.id

theorem Inv.get_iff {q : InMemoryWorkQueue V} (h : q.Inv) {id : String} {x : WorkItem V} :
    q.items.get id = some x ↔ x ∈ q.items.values ∧ x.id = id := by
  constructor
  · intro hx
    have hm := Dict.mem_of_get hx
    exact ⟨List.mem_map.2 ⟨_, hm, rfl⟩, h.ids _ hm⟩
  · rintro ⟨hx, rfl⟩
    obtain ⟨⟨k, y⟩, hm, rfl⟩ := List.mem_map.1 hx
    have hid := h.ids _ hm
    dsimp only at hid ⊢
    subst hid
    exact Dict.get_of_mem h.nodup hm

theorem Inv.empty : ({} : InMemoryWorkQueue V).Inv where
  ids i hi := absurd hi List.not_mem_nil
  nodup := List.nodup_nil
  known h := by cases h
  first x hx := absurd hx List.not_mem_nil

/-- An assignment to a stored item replaces it. -/
theorem Inv.put {q : InMemoryWorkQueue V} (h : q.Inv) {x : WorkItem V} (x' : WorkItem V)
    (hx : x ∈ q.items.values) (hid : x'.id = x.id) (hkey : x'.key = x.key) :
    (q.put x').Inv ∧ (q.put x').items.values = alter q.items.values x' := by
  have hget := h.get_iff.2 ⟨hx, rfl⟩
  have hmem : x'.id ∈ q.items.keys :=
    List.mem_map.2 ⟨_, Dict.mem_of_get hget, hid.symm⟩
  have hset : (q.put x').items = q.items.map fun i => if i.1 = x'.id then (i.1, x') else i :=
    set_eq_map x' h.nodup hmem
  have hvalues : (q.put x').items.values = alter q.items.values x' := by
    rw [hset]
    simp only [Dict.values, alter, List.map_map]
    refine List.map_congr_left fun i hi => ?_
    have hi' := h.ids i hi
    simp only [Function.comp, hi']
    split <;> rfl
  have hget' : ∀ id, (q.put x').items.get id = if id = x'.id then some x' else q.items.get id :=
    fun id => Dict.get_set _ _ _ _
  refine ⟨⟨?_, ?_, ?_, ?_⟩, hvalues⟩
  · intro i hi
    rw [hset] at hi
    obtain ⟨j, hj, rfl⟩ := List.mem_map.1 hi
    split
    · rename_i hjx; exact hjx.symm
    · exact h.ids j hj
  · exact Dict.nodup_keys_set _ _ h.nodup
  · intro k id hk
    obtain ⟨y, hy, hyk⟩ := h.known hk
    rw [hget']
    split
    · rename_i hidx
      rw [hidx, hid, hget] at hy
      cases hy
      exact ⟨x', rfl, hkey.trans hyk⟩
    · exact ⟨y, hy, hyk⟩
  · intro y hy hne
    rw [hvalues] at hy
    obtain ⟨z, hz, rfl⟩ := List.mem_map.1 hy
    by_cases hzx : z.id = x'.id
    · rw [if_pos hzx] at hne ⊢
      rw [hkey, hid]
      exact h.first x hx (hid ▸ hne)
    · rw [if_neg hzx] at hne ⊢
      exact h.first z hz hne

theorem Inv.values_insert {q : InMemoryWorkQueue V} (h : q.Inv) {x : WorkItem V}
    (hnew : ∀ y ∈ q.items.values, y.id ≠ x.id) :
    (q.items.set x.id x).values = q.items.values ++ [x] := by
  have hnone : q.items.get x.id = none := by
    rcases hg : q.items.get x.id with _ | y
    · rfl
    · obtain ⟨hy, hid⟩ := h.get_iff.1 hg
      exact absurd hid (hnew y hy)
  rw [Dict.set_of_get_none hnone]
  simp [Dict.values]

/-- `enqueue` takes an item for another one of the same key, unless the id of that is empty. -/
def Dup (y x : WorkItem V) : Prop := y.key = x.key ∧ y.id ≠ ""

/-- By what `claim` sorts. -/
def rank (x : WorkItem V) : Time × Time := (x.availableAt, x.createdAt)

theorem Inv.enqueue {q : InMemoryWorkQueue V} (h : q.Inv) {c : TimedCall V} {x : WorkItem V}
    (hc : c.call = .enqueue x) (hnew : ∀ y ∈ q.items.values, y.id ≠ x.id) :
    (q.enqueue x).2.Inv ∧
      Answers rank Dup q.items.values c (q.enqueue x).1 (q.enqueue x).2.items.values := by
  have hins : q.deduplication.get x.key = none ∨ q.deduplication.get x.key = some "" →
      (⟨q.items.set x.id x, q.deduplication.set x.key x.id⟩ : InMemoryWorkQueue V).Inv ∧
      ∀ y ∈ q.items.values, ¬ Dup y x := by
    intro hd
    have hdup : ∀ y ∈ q.items.values, ¬ Dup y x := by
      rintro y hy ⟨hk, hne⟩
      have hf := h.first y hy hne
      rw [hk] at hf
      rcases hd with hd | hd
      · rw [hd] at hf; cases hf
      · rw [hd] at hf; exact hne (Option.some.inj hf).symm
    refine ⟨⟨?_, Dict.nodup_keys_set _ _ h.nodup, ?_, ?_⟩, hdup⟩
    · intro i hi
      have hvalues := h.values_insert hnew
      have hg := Dict.get_of_mem (Dict.nodup_keys_set x.id x h.nodup) (k := i.1) (v := i.2) hi
      rw [Dict.get_set] at hg
      split at hg
      · rename_i hix; cases hg; exact hix.symm
      · exact (h.get_iff.1 hg).2
    · intro k id hk
      dsimp only at hk ⊢
      rw [Dict.get_set] at hk
      split at hk
      · rename_i hkx
        cases hk
        exact ⟨x, Dict.get_set_self _ _ _, hkx.symm⟩
      · obtain ⟨y, hy, hyk⟩ := h.known hk
        obtain ⟨hym, hid⟩ := h.get_iff.1 hy
        refine ⟨y, ?_, hyk⟩
        rw [Dict.get_set_ne fun hix => hnew y hym (hid.trans hix)]
        exact hy
    · intro y hy hne
      dsimp only at hy ⊢
      rw [h.values_insert hnew, List.mem_append, List.mem_singleton] at hy
      rcases hy with hy | rfl
      · rw [Dict.get_set_ne fun hk => hdup y hy ⟨hk, hne⟩]
        exact h.first y hy hne
      · exact Dict.get_set_self _ _ _
  unfold InMemoryWorkQueue.enqueue
  rcases hd : q.deduplication.get x.key with _ | id
  · obtain ⟨hinv, hdup⟩ := hins (.inl hd)
    refine ⟨hinv, ?_⟩
    simp only [Option.filter_none]
    rw [h.values_insert hnew]
    exact .insert hc hdup
  · by_cases hid : id = ""
    · subst hid
      obtain ⟨hinv, hdup⟩ := hins (.inr hd)
      refine ⟨hinv, ?_⟩
      simp only [Option.filter_some, ne_eq, not_true, decide_false, Bool.false_eq_true, if_false]
      rw [h.values_insert hnew]
      exact .insert hc hdup
    · obtain ⟨y, hy, hk⟩ := h.known hd
      obtain ⟨hym, hyid⟩ := h.get_iff.1 hy
      simp only [Option.filter_some, ne_eq, hid, not_false_eq_true, decide_true, if_true, hy]
      exact ⟨h, .present hc hym ⟨hk, hyid ▸ hid⟩⟩

theorem Inv.claim {q : InMemoryWorkQueue V} (h : q.Inv) {c : TimedCall V} {w : String}
    {secs : Int} (hc : c.call = .claim w secs) :
    (q.claim c.now w secs).2.Inv ∧ Answers rank Dup q.items.values c
      (q.claim c.now w secs).1 (q.claim c.now w secs).2.items.values := by
  unfold InMemoryWorkQueue.claim
  split
  · rename_i hnone
    have hnil := earliest_none hnone
    refine ⟨h, .idle hc fun y hy => ?_⟩
    have := List.filter_eq_nil_iff.1 hnil y hy
    simpa using this
  · rename_i x hx
    have hmem := earliest_mem hx
    obtain ⟨hxm, hel⟩ := List.mem_filter.1 hmem
    obtain ⟨hinv, hvalues⟩ := h.put (x.claim c.now w secs) hxm rfl rfl
    refine ⟨hinv, ?_⟩
    dsimp only
    rw [hvalues]
    refine .claim hc hxm hel (fun y hy hye => ?_) .rfl
    exact earliest_before hx y (List.mem_filter.2 ⟨hy, hye⟩)

theorem Inv.update {q : InMemoryWorkQueue V} (h : q.Inv) {c : TimedCall V} {itemId w : String}
    {f : WorkItem V → WorkItem V} (hc : c.assignment = some (itemId, w, f))
    (hf : ∀ x, (f x).id = x.id ∧ (f x).key = x.key) :
    (q.update itemId w c.accepted f).2.Inv ∧ Answers rank Dup q.items.values c
      (q.update itemId w c.accepted f).1 (q.update itemId w c.accepted f).2.items.values := by
  unfold InMemoryWorkQueue.update owned
  rcases hg : q.items.get itemId with _ | x
  · refine ⟨h, .refuse hc (fun x hx hid => ?_) (.inl rfl)⟩
    rw [h.get_iff.2 ⟨hx, hid⟩] at hg
    cases hg
  · obtain ⟨hx, hid⟩ := h.get_iff.1 hg
    by_cases ho : x.owned w
    · obtain ⟨hinv, hvalues⟩ := h.put (f x) hx (hf x).1 (hf x).2
      simp only [ho, if_true]
      refine ⟨hinv, ?_⟩
      rw [hvalues]
      exact .update hc hx hid ho .rfl
    · simp only [ho]
      refine ⟨h, .refuse hc (fun y hy hyid => ?_) (.inl rfl)⟩
      have := h.get_iff.2 ⟨hy, hyid⟩
      rw [hg] at this
      cases this
      simpa using ho

/-- **The queue in memory serves its callers.** -/
theorem Inv.serves {q : InMemoryWorkQueue V} (h : q.Inv) (c : TimedCall V)
    (hnew : ∀ x, c.call = .enqueue x → ∀ y ∈ q.items.values, y.id ≠ x.id) :
    (step c q).2.Inv ∧ Answers rank Dup q.items.values c (step c q).1 (step c q).2.items.values := by
  obtain ⟨call, now, later⟩ := c
  cases call with
  | enqueue x => exact h.enqueue rfl (hnew x rfl)
  | claim w secs => exact h.claim (c := ⟨.claim w secs, now, later⟩) rfl
  | renew id w secs =>
    exact h.update (c := ⟨.renew id w secs, now, later⟩) rfl fun _ => ⟨rfl, rfl⟩
  | complete id w result =>
    exact h.update (c := ⟨.complete id w result, now, later⟩) rfl fun _ => ⟨rfl, rfl⟩
  | fail id w error retry =>
    exact h.update (c := ⟨.fail id w error retry, now, later⟩) rfl fun _ => ⟨rfl, rfl⟩

end InMemoryWorkQueue

/-! ## The queue in PostgreSQL -/

namespace PostgresWorkQueue

/-- What a row says twice, with the two columns that its JSON does not have. -/
structure Entry (V : Type) where
  item : WorkItem V
  createdAt : Time
  updatedAt : Time

namespace Entry

/-- The row whose columns agree with its JSON. -/
def row (e : Entry V) : WorkRow V :=
  { id := e.item.id, tenantId := e.item.tenantId, kind := e.item.kind
    deduplicationKey := e.item.deduplicationKey, status := e.item.status.value
    attempts := e.item.attempts, maximumAttempts := e.item.maximumAttempts
    availableAt := e.item.availableAt, leaseOwner := e.item.leaseOwner
    leaseExpiresAt := e.item.leaseExpiresAt, result := e.item.result, error := e.item.error
    item := e.item.dump, createdAt := e.createdAt, updatedAt := e.updatedAt }

/-- The item assigned to, with `updated_at` left alone if `stamp` is empty. -/
def assign (e : Entry V) (x : WorkItem V) (stamp : Option Time) (now : Time) : Entry V :=
  ⟨{ x with updatedAt := stamp.getD e.item.updatedAt }, e.createdAt, now⟩

@[simp] theorem row_id (e : Entry V) : e.row.id = e.item.id := rfl

theorem claim_row (e : Entry V) (now : Time) (w : String) (secs : Int) :
    e.row.claim now w secs = (e.assign (e.item.claim now w secs) none now).row := by
  simp [row, assign, WorkRow.claim, WorkItem.claim, WorkItem.dump, Dict.set, Json.nullable,
    WorkStatus.value]

theorem renew_row (e : Entry V) (now later : Time) (secs : Int) :
    e.row.renew now secs = (e.assign (e.item.renew now later secs) none now).row := by
  simp [row, assign, WorkRow.renew, WorkItem.renew, WorkItem.dump, Dict.set, Json.nullable]

theorem complete_row (e : Entry V) (now : Time) (result : Dict String V) :
    e.row.complete now result = (e.assign (e.item.complete now result) (some now) now).row := by
  simp [row, assign, WorkRow.complete, WorkItem.complete, WorkItem.dump, Dict.set, Json.nullable,
    WorkStatus.value]

theorem failStatus_row (e : Entry V) (now : Time) (error : String) (retry : Bool) :
    e.row.failStatus (if retry then "pending" else "failed") =
      (e.item.fail now error retry).status.value := by
  cases retry <;> simp only [WorkRow.failStatus, WorkItem.fail, row] <;> simp [WorkStatus.value] <;>
    split <;> rfl

theorem fail_row (e : Entry V) (now : Time) (error : String) (retry : Bool) :
    e.row.fail now (if retry then "pending" else "failed") error =
      (e.assign (e.item.fail now error retry) (some now) now).row := by
  simp only [WorkRow.fail, e.failStatus_row now error retry]
  simp [row, assign, WorkItem.fail, WorkItem.dump, Dict.set, Json.nullable]

theorem candidate_row (e : Entry V) (now : Time) :
    e.row.candidate now = e.item.eligible now := by
  have hp : e.item.status.value = "pending" ↔ e.item.status = .pending :=
    WorkStatus.value_inj (y := .pending)
  have hl : e.item.status.value = "leased" ↔ e.item.status = .leased :=
    WorkStatus.value_inj (y := .leased)
  simp only [WorkRow.candidate, WorkItem.eligible, row, hp, hl, decide_eq_decide]
  tauto

theorem owned_row (e : Entry V) (itemId w : String) :
    e.row.owned itemId w = decide (e.item.id = itemId ∧ e.item.owned w) := by
  have hl : e.item.status.value = "leased" ↔ e.item.status = .leased :=
    WorkStatus.value_inj (y := .leased)
  simp only [WorkRow.owned, WorkItem.owned, row, hl, decide_eq_decide, decide_eq_true_eq]
  tauto

theorem row_inserted {x : WorkItem V} (h : x.Unused) (now : Time) :
    (⟨x, now, now⟩ : Entry V).row = inserted now x := by
  simp [row, inserted, h.leaseOwner, h.leaseExpiresAt, h.result, h.error]

end Entry

/-- What no method assigns: the fields of the items and the creation times of the rows. -/
def stamps (es : List (Entry V)) : List (WorkItem V × Time) :=
  es.map fun e => (e.item.fixed, e.createdAt)

/-- What a call adds to them. -/
def added (c : TimedCall V) : Except Exn (QueueReply V) → List (WorkItem V × Time)
  | .ok (.enqueued x true) => [(x.fixed, c.now)]
  | _ => []

/-- The same key, which the table allows once. -/
def SameKey (y x : WorkItem V) : Prop := y.key = x.key

section
variable {es : List (Entry V)}

theorem eq_of_id (hids : (es.map fun e => e.item.id).Nodup) {e e' : Entry V} (he : e ∈ es)
    (he' : e' ∈ es) (h : e.item.id = e'.item.id) : e = e' :=
  List.inj_on_of_nodup_map hids he he' h

/-- An assignment to the row of one item. -/
theorem update_one (hids : (es.map fun e => e.item.id).Nodup) {e₀ : Entry V} (he₀ : e₀ ∈ es)
    (cond : WorkRow V → Bool) (f : WorkRow V → WorkRow V) (x : WorkItem V) (stamp : Option Time)
    (now : Time) (hcond : ∀ e ∈ es, cond e.row ↔ e.item.id = e₀.item.id)
    (hf : f e₀.row = (e₀.assign x stamp now).row) (hid : x.id = e₀.item.id)
    (hat : x.fixed = e₀.item.fixed) :
    (update (es.map Entry.row) cond f).1 = 1 ∧ ∃ es' : List (Entry V),
      (update (es.map Entry.row) cond f).2 = es'.map Entry.row ∧
      es'.map (fun e => e.item) =
        alter (es.map fun e => e.item) (e₀.assign x stamp now).item ∧
      stamps es' = stamps es := by
  refine ⟨?_, es.map fun e => if e.item.id = e₀.item.id then e₀.assign x stamp now else e,
    ?_, ?_, ?_⟩
  · have hcount := List.count_eq_one_of_mem hids (List.mem_map_of_mem he₀)
    rw [List.count, List.countP_map] at hcount
    simp only [update, List.countP_map]
    rw [← hcount]
    refine List.countP_congr fun e he => ?_
    simp [hcond e he]
  · simp only [update, List.map_map]
    refine List.map_congr_left fun e he => ?_
    simp only [Function.comp]
    by_cases h : e.item.id = e₀.item.id
    · obtain rfl := eq_of_id hids he he₀ h
      rw [if_pos ((hcond e he).2 rfl), if_pos rfl, hf]
    · rw [if_neg fun hc => h ((hcond e he).1 hc), if_neg h]
  · simp only [alter, List.map_map]
    refine List.map_congr_left fun e he => ?_
    have hx : (e₀.assign x stamp now).item.id = e₀.item.id := hid
    simp only [Function.comp, hx]
    split <;> rfl
  · simp only [stamps, List.map_map]
    refine List.map_congr_left fun e he => ?_
    simp only [Function.comp]
    split
    · rename_i h
      obtain rfl := eq_of_id hids he he₀ h
      exact congrArg (fun y => (y, e.createdAt)) hat
    · rfl

theorem update_none {cond : WorkRow V → Bool} {f : WorkRow V → WorkRow V}
    (hcond : ∀ e ∈ es, cond e.row = false) :
    update (es.map Entry.row) cond f = (0, es.map Entry.row) := by
  have hcount : (es.map Entry.row).countP cond = 0 := by
    refine List.countP_eq_zero.2 fun r hr => ?_
    obtain ⟨e, he, rfl⟩ := List.mem_map.1 hr
    simp [hcond e he]
  have hrows : (es.map Entry.row).map (fun r => if cond r then f r else r) = es.map Entry.row := by
    rw [List.map_map]
    refine List.map_congr_left fun e he => ?_
    simp [hcond e he]
  simp only [update, hcount, hrows]

end

/-- What a call leaves in the table. -/
structure Served (rank : WorkItem V → Time × Time) (es : List (Entry V)) (c : TimedCall V)
    (out : Except Exn (QueueReply V) × List (WorkRow V)) (es' : List (Entry V)) : Prop where
  rows : out.2 = es'.map Entry.row
  serves : Answers rank SameKey (es.map fun e => e.item) c out.1 (es'.map fun e => e.item)
  stamps : stamps es' = stamps es ++ added c out.1

section
variable {es : List (Entry V)} {rank : WorkItem V → Time × Time} {c : TimedCall V}

theorem enqueue_served {x : WorkItem V} (hc : c.call = .enqueue x) (hx : x.Unused)
    (hnew : ∀ e ∈ es, e.item.id ≠ x.id) :
    ∃ es', Served rank es c (enqueue (es.map Entry.row) c.now x) es' := by
  unfold enqueue
  split
  · rename_i r hr
    obtain ⟨e, he, rfl⟩ := List.mem_map.1 (List.mem_of_find?_eq_some hr)
    have hkey := List.find?_some hr
    rw [show e.row.item = e.item.dump from rfl, WorkItem.validate_dump]
    refine ⟨es, rfl, .present hc (List.mem_map_of_mem he) ?_, by simp [added]⟩
    simp only [decide_eq_true_eq] at hkey
    exact Prod.ext hkey.1 hkey.2
  · rename_i hnone
    have hids : (es.map Entry.row).any (fun r => r.id = x.id) = false := by
      refine List.any_eq_false.2 fun r hr => ?_
      obtain ⟨e, he, rfl⟩ := List.mem_map.1 hr
      simp [hnew e he]
    simp only [hids, Bool.false_eq_true, if_false]
    refine ⟨es ++ [⟨x, c.now, c.now⟩], by simp [Entry.row_inserted hx], ?_, by simp [stamps, added]⟩
    rw [List.map_append]
    refine .insert hc fun y hy hk => ?_
    obtain ⟨e, he, rfl⟩ := List.mem_map.1 hy
    refine List.find?_eq_none.1 hnone _ (List.mem_map_of_mem he) ?_
    simp only [decide_eq_true_eq]
    exact ⟨congrArg Prod.fst hk, congrArg Prod.snd hk⟩

theorem claim_served {scan : List (WorkRow V) → List (WorkRow V)}
    (hscan : ∀ rows, (scan rows).Perm rows) (hids : (es.map fun e => e.item.id).Nodup)
    (hrank : ∀ e ∈ es, ∀ e' ∈ es, WorkItem.before (e.item.availableAt, e.createdAt)
      (e'.item.availableAt, e'.createdAt) → WorkItem.before (rank e.item) (rank e'.item))
    {w : String} {secs : Int} (hc : c.call = .claim w secs) :
    ∃ es', Served rank es c (claim scan (es.map Entry.row) c.now w secs) es' := by
  have hmem : ∀ r, r ∈ (scan (es.map Entry.row)).filter (WorkRow.candidate c.now) ↔
      ∃ e ∈ es, e.item.eligible c.now ∧ e.row = r := by
    intro r
    rw [List.mem_filter, (hscan _).mem_iff, List.mem_map]
    constructor
    · rintro ⟨⟨e, he, rfl⟩, hr⟩
      exact ⟨e, he, by rw [← e.candidate_row]; exact hr, rfl⟩
    · rintro ⟨e, he, hel, rfl⟩
      exact ⟨⟨e, he, rfl⟩, by rw [e.candidate_row]; exact hel⟩
  unfold claim
  split
  · rename_i hnone
    refine ⟨es, rfl, .idle hc fun y hy => ?_, by simp [added]⟩
    obtain ⟨e, he, rfl⟩ := List.mem_map.1 hy
    have hnot := (hmem e.row).2.mt (by rw [earliest_none hnone]; exact List.not_mem_nil)
    exact Bool.eq_false_iff.2 fun hel => hnot ⟨e, he, hel, rfl⟩
  · rename_i r hr
    obtain ⟨e, he, hel, rfl⟩ := (hmem r).1 (earliest_mem hr)
    obtain ⟨-, es', hrows, hitems, hst⟩ := update_one hids he
      (fun w => decide (w.id = e.row.id)) (WorkRow.claim c.now w secs)
      (e.item.claim c.now w secs) none c.now
      (fun e' _ => decide_eq_true_iff) (e.claim_row c.now w secs) rfl rfl
    rw [show (e.row.claim c.now w secs).item =
      (e.assign (e.item.claim c.now w secs) none c.now).item.dump by rw [e.claim_row]; rfl,
      WorkItem.validate_dump]
    refine ⟨es', hrows, ?_, by simp [hst, added]⟩
    dsimp only
    rw [hitems]
    refine .claim hc (List.mem_map_of_mem he) hel (fun y hy hye => ?_) ⟨_, rfl⟩
    obtain ⟨e', he', rfl⟩ := List.mem_map.1 hy
    exact hrank e he e' he' (earliest_before hr e'.row ((hmem _).2 ⟨e', he', hye, rfl⟩))

/-- An update of the row that the worker owns. -/
theorem update_served (hids : (es.map fun e => e.item.id).Nodup) {itemId w : String}
    {f : WorkItem V → WorkItem V} {g : WorkRow V → WorkRow V} (stamp : Option Time)
    (reply : Nat → Except Exn (QueueReply V)) (hc : c.assignment = some (itemId, w, f))
    (hf : ∀ e : Entry V, g e.row = (e.assign (f e.item) stamp c.now).row)
    (hid : ∀ x, (f x).id = x.id ∧ (f x).fixed = x.fixed)
    (hone : reply 1 = .ok c.accepted) (hzero : c.Refused (reply 0))
    (hadd : ∀ n, added c (reply n) = []) :
    ∃ es', Served rank es c
      (reply (update (es.map Entry.row) (WorkRow.owned itemId w) g).1,
        (update (es.map Entry.row) (WorkRow.owned itemId w) g).2) es' := by
  by_cases h : ∃ e ∈ es, e.item.id = itemId ∧ e.item.owned w
  · obtain ⟨e, he, hei, heo⟩ := h
    obtain ⟨hn, es', hrows, hitems, hst⟩ := update_one hids he
      (WorkRow.owned itemId w) g (f e.item) stamp c.now
      (fun e' he' => by
        rw [e'.owned_row, decide_eq_true_eq]
        refine ⟨fun h => h.1.trans hei.symm, fun h => ?_⟩
        obtain rfl := eq_of_id hids he' he h
        exact ⟨hei, heo⟩)
      (hf e) (hid _).1 (hid _).2
    refine ⟨es', hrows, ?_, by rw [hst, hadd, List.append_nil]⟩
    rw [hn, hone]
    dsimp only
    rw [hitems]
    exact .update hc (List.mem_map_of_mem he) hei heo ⟨_, rfl⟩
  · have hno : ∀ e ∈ es, e.row.owned itemId w = false := by
      intro e he
      rw [e.owned_row, decide_eq_false_iff_not]
      exact fun hc => h ⟨e, he, hc⟩
    rw [update_none hno]
    refine ⟨es, rfl, .refuse hc (fun y hy hy' => ?_) hzero, by rw [hadd, List.append_nil]⟩
    obtain ⟨e, he, rfl⟩ := List.mem_map.1 hy
    exact Bool.eq_false_iff.2 fun ho => h ⟨e, he, hy', ho⟩

/-- **The queue in PostgreSQL serves its callers.** -/
theorem served (rank : WorkItem V → Time × Time) {scan : List (WorkRow V) → List (WorkRow V)}
    (hscan : ∀ rows, (scan rows).Perm rows) (hids : (es.map fun e => e.item.id).Nodup)
    (hrank : ∀ e ∈ es, ∀ e' ∈ es, WorkItem.before (e.item.availableAt, e.createdAt)
      (e'.item.availableAt, e'.createdAt) → WorkItem.before (rank e.item) (rank e'.item))
    (hnew : ∀ x, c.call = .enqueue x → x.Unused ∧ ∀ e ∈ es, e.item.id ≠ x.id) :
    ∃ es', Served rank es c (step scan c (es.map Entry.row)) es' := by
  obtain ⟨call, now, later⟩ := c
  cases call with
  | enqueue x => exact enqueue_served rfl (hnew x rfl).1 (hnew x rfl).2
  | claim w secs => exact claim_served (c := ⟨.claim w secs, now, later⟩) hscan hids hrank rfl
  | renew id w secs =>
    exact update_served (c := ⟨.renew id w secs, now, later⟩) hids none
      (fun n => .ok (.renewed (n = 1))) rfl
      (fun e => e.renew_row now later secs) (fun _ => ⟨rfl, rfl⟩) rfl
      (.inr ⟨⟨_, _, _, rfl⟩, rfl⟩) fun _ => rfl
  | complete id w result =>
    exact update_served (c := ⟨.complete id w result, now, later⟩) hids (some now)
      (fun n => if n = 1 then .ok .done else .error (.conflict .leaseNotOwned)) rfl
      (fun e => e.complete_row now result) (fun _ => ⟨rfl, rfl⟩) rfl (.inl rfl)
      fun n => by split <;> rfl
  | fail id w error retry =>
    exact update_served (c := ⟨.fail id w error retry, now, later⟩) hids (some now)
      (fun n => if n = 1 then .ok .done else .error (.conflict .leaseNotOwned)) rfl
      (fun e => e.fail_row now error retry) (fun _ => ⟨rfl, rfl⟩) rfl (.inl rfl)
      fun n => by split <;> rfl

end

end PostgresWorkQueue

/-! ## The ledger of leases -/

/-- What the item says of its lease. -/
def WorkItem.slot (x : WorkItem V) : Lease.Slot String Time where
  phase := match x.status with
    | .pending => .waiting
    | .leased => .held (x.leaseOwner.getD "") (x.leaseExpiresAt.getD 0)
    | .completed | .failed => .closed
  taken := x.attempts
  limit := x.maximumAttempts

def findItem (l : List (WorkItem V)) (id : String) : Option (WorkItem V) :=
  l.find? fun x => x.id = id

def ledger (l : List (WorkItem V)) : Lease.Ledger String String Time := fun id =>
  (findItem l id).map WorkItem.slot

/-- The items of a queue: their ids are distinct, and the leased ones have an owner and an
    expiry. -/
structure Shelf (l : List (WorkItem V)) : Prop where
  ids : (l.map fun x => x.id).Nodup
  proper : ∀ x ∈ l, x.Proper

theorem findItem_eq_some {l : List (WorkItem V)} (h : (l.map fun x => x.id).Nodup) {id : String}
    {x : WorkItem V} : findItem l id = some x ↔ x ∈ l ∧ x.id = id := by
  constructor
  · intro hx
    exact ⟨List.mem_of_find?_eq_some hx, by simpa using List.find?_some hx⟩
  · rintro ⟨hx, rfl⟩
    rcases hf : findItem l x.id with _ | y
    · exact absurd (List.find?_eq_none.1 hf x hx) (by simp)
    · have hy := List.mem_of_find?_eq_some hf
      have hid : y.id = x.id := by simpa using List.find?_some hf
      exact congrArg some (List.inj_on_of_nodup_map h hy hx hid)

theorem findItem_eq_none {l : List (WorkItem V)} {id : String} :
    findItem l id = none ↔ ∀ x ∈ l, x.id ≠ id := by
  simp [findItem, List.find?_eq_none]

theorem map_id_alter (l : List (WorkItem V)) (x : WorkItem V) :
    (alter l x).map (fun y => y.id) = l.map fun y => y.id := by
  rw [alter, List.map_map]
  refine List.map_congr_left fun y _ => ?_
  simp only [Function.comp]
  split
  · rename_i h; exact h.symm
  · rfl

theorem findItem_alter {l : List (WorkItem V)} (h : (l.map fun x => x.id).Nodup) {x x' : WorkItem V}
    (hx : x ∈ l) (hid : x'.id = x.id) (id : String) :
    findItem (alter l x') id = if id = x.id then some x' else findItem l id := by
  have h' : ((alter l x').map fun x => x.id).Nodup := by rw [map_id_alter]; exact h
  split
  · rename_i hi
    refine (findItem_eq_some h').2 ⟨List.mem_map.2 ⟨x, hx, by rw [if_pos hid.symm]⟩, ?_⟩
    rw [hi, hid]
  · rename_i hi
    rcases hf : findItem l id with _ | y
    · rw [findItem_eq_none] at hf ⊢
      intro z hz
      have : z.id ∈ (alter l x').map fun x => x.id := List.mem_map_of_mem hz
      rw [map_id_alter] at this
      obtain ⟨u, hu, huz⟩ := List.mem_map.1 this
      exact huz ▸ hf u hu
    · obtain ⟨hy, hyid⟩ := (findItem_eq_some h).1 hf
      refine (findItem_eq_some h').2 ⟨List.mem_map.2 ⟨y, hy, ?_⟩, hyid⟩
      rw [if_neg fun hyx => hi (by rw [← hyid, hyx, hid])]

theorem findItem_append (l : List (WorkItem V)) {x : WorkItem V} (hx : ∀ y ∈ l, y.id ≠ x.id)
    (id : String) : findItem (l ++ [x]) id = if id = x.id then some x else findItem l id := by
  rw [findItem, List.find?_append]
  split
  · rename_i h
    subst h
    rw [show l.find? (fun y => decide (y.id = x.id)) = none from findItem_eq_none.2 hx]
    simp
  · rename_i h
    rw [show [x].find? (fun y => decide (y.id = id)) = none by simp [Ne.symm h], Option.or_none]
    rfl

/-- The ledger after one item has changed. -/
theorem ledger_of_findItem {l l' : List (WorkItem V)} {x : WorkItem V} {i : String}
    (h : ∀ id, findItem l' id = if id = i then some x else findItem l id) :
    ledger l' = Function.update (ledger l) i (some x.slot) := by
  funext id
  rw [Function.update_apply, ledger, h]
  split <;> rfl

theorem WorkItem.Unused.proper {x : WorkItem V} (h : x.Unused) : x.Proper := by
  constructor <;> simp [h.status, h.leaseOwner, h.leaseExpiresAt]

theorem WorkItem.Unused.slot {x : WorkItem V} (h : x.Unused) :
    x.slot = { limit := x.maximumAttempts } := by
  simp [WorkItem.slot, h.status, h.attempts]

/-- The lease of an owned item. -/
theorem WorkItem.Proper.held {x : WorkItem V} (h : x.Proper) {w : String} (ho : x.owned w) :
    ∃ e, x.leaseExpiresAt = some e ∧ x.slot.phase = .held w e := by
  simp only [WorkItem.owned, decide_eq_true_eq] at ho
  obtain ⟨e, he⟩ := Option.isSome_iff_exists.1 (h.expires.1 ho.1)
  exact ⟨e, he, by simp [WorkItem.slot, ho.1, ho.2, he]⟩

/-- An eligible item is free. -/
theorem WorkItem.Proper.eligible_iff {x : WorkItem V} (h : x.Proper) (now : Time) :
    x.eligible now ↔ x.availableAt ≤ now ∧ x.slot.Free now := by
  simp only [WorkItem.eligible, decide_eq_true_eq, Lease.Slot.Free]
  refine and_congr_right fun _ => and_congr_left fun _ => ?_
  match hs : x.status with
  | .pending => simp [WorkItem.slot, hs]
  | .leased =>
    obtain ⟨e, he⟩ := Option.isSome_iff_exists.1 (h.expires.1 hs)
    simp [WorkItem.slot, hs, he]
  | .completed => simp [WorkItem.slot, hs]
  | .failed => simp [WorkItem.slot, hs]

/-! ## A call is a move of the ledger -/

structure Moved (l : List (WorkItem V)) (c : TimedCall V) (r : Except Exn (QueueReply V))
    (l' : List (WorkItem V)) : Prop where
  shelf : Shelf l'
  step : Lease.Step (ledger l) (c.event r) (ledger l')
  frame : ∀ id, (c.event r).subject ≠ some id → findItem l' id = findItem l id
  ids : ∀ x ∈ l', (∃ y ∈ l, y.id = x.id ∧ y.maximumAttempts = x.maximumAttempts) ∨
    c.call = .enqueue x
  available : ∀ x ∈ l', 0 < x.attempts →
    x.availableAt ≤ c.now ∨ ∃ y ∈ l, 0 < y.attempts ∧ y.availableAt = x.availableAt
  claimed : ∀ x, r = .ok (.claimed (some x)) → ∃ w secs, c.call = .claim w secs

theorem Moved.still {l : List (WorkItem V)} (hl : Shelf l) {c : TimedCall V}
    {r : Except Exn (QueueReply V)} (hev : c.event r = .idle)
    (hno : ∀ x, r ≠ .ok (.claimed (some x))) : Moved l c r l where
  shelf := hl
  step := hev ▸ .idle
  frame _ _ := rfl
  ids x hx := .inl ⟨x, hx, rfl, rfl⟩
  available x hx h := .inr ⟨x, hx, h, rfl⟩
  claimed x hr := absurd hr (hno x)

/-- One item has been assigned to. -/
theorem Moved.alter {l : List (WorkItem V)} (hl : Shelf l) {c : TimedCall V}
    {r : Except Exn (QueueReply V)} {x x' : WorkItem V} (hx : x ∈ l) (hid : x'.id = x.id)
    (hmax : x'.maximumAttempts = x.maximumAttempts)
    (hav : x'.availableAt = x.availableAt)
    (hcl : ∀ y, r = .ok (.claimed (some y)) → ∃ w secs, c.call = .claim w secs)
    (hat : x'.availableAt ≤ c.now ∨ x'.attempts = x.attempts) (hp : x'.Proper)
    (hsub : (c.event r).subject = some x.id)
    (hstep : ledger l x.id = some x.slot →
      Lease.Step (ledger l) (c.event r) (Function.update (ledger l) x.id (some x'.slot))) :
    Moved l c r (alter l x') where
  shelf := by
    refine ⟨by rw [map_id_alter]; exact hl.ids, fun y hy => ?_⟩
    obtain ⟨z, hz, rfl⟩ := List.mem_map.1 hy
    split
    · exact hp
    · exact hl.proper z hz
  step := by
    rw [ledger_of_findItem (findItem_alter hl.ids hx hid)]
    refine hstep ?_
    rw [ledger, (findItem_eq_some hl.ids).2 ⟨hx, rfl⟩]
    rfl
  frame id hne := by
    rw [findItem_alter hl.ids hx hid, if_neg]
    rintro rfl
    exact hne hsub
  ids y hy := by
    obtain ⟨z, hz, rfl⟩ := List.mem_map.1 hy
    split
    · exact .inl ⟨x, hx, hid.symm, hmax.symm⟩
    · exact .inl ⟨z, hz, rfl, rfl⟩
  available y hy hpos := by
    obtain ⟨z, hz, rfl⟩ := List.mem_map.1 hy
    by_cases hzx : z.id = x'.id
    · rw [if_pos hzx] at hpos ⊢
      rcases hat with hat | hat
      · exact .inl hat
      · exact .inr ⟨x, hx, hat ▸ hpos, hav.symm⟩
    · rw [if_neg hzx] at hpos ⊢
      exact .inr ⟨z, hz, hpos, rfl⟩
  claimed := hcl

/-- A call of the owner of an item. -/
theorem Moved.update {l : List (WorkItem V)} (hl : Shelf l) {c : TimedCall V} {itemId w : String}
    {f : WorkItem V → WorkItem V} (hc : c.assignment = some (itemId, w, f)) {x x' : WorkItem V}
    (hx : x ∈ l) (hid : x.id = itemId) (ho : x.owned w) (ha : (f x).Alike x') :
    Moved l c (.ok c.accepted) (TracciaRuntime.alter l x') := by
  obtain ⟨call, now, later⟩ := c
  obtain ⟨t, rfl⟩ := ha
  obtain ⟨e, he, hheld⟩ := (hl.proper x hx).held ho
  have hstatus : x.status = .leased ∧ x.leaseOwner = some w := by
    simpa [WorkItem.owned] using ho
  subst hid
  cases call with
  | enqueue | claim => cases hc
  | renew i w' secs =>
    cases hc
    refine .alter hl hx rfl rfl rfl (by simp [TimedCall.accepted]) (.inr rfl) ⟨?_, ?_⟩ rfl fun hs => ?_
    · simp [WorkItem.renew, hstatus]
    · simp [WorkItem.renew, hstatus]
    · have hslot : ({ x.renew now later secs with updatedAt := t } : WorkItem V).slot =
          { x.slot with phase := .held w (now + secs) } := by
        simp [WorkItem.slot, WorkItem.renew, hstatus]
      rw [hslot]
      exact .extend hs hheld
  | complete i w' result =>
    cases hc
    refine .alter hl hx rfl rfl rfl (by simp [TimedCall.accepted]) (.inr rfl) ⟨?_, ?_⟩ rfl fun hs => ?_
    · simp [WorkItem.complete]
    · simp [WorkItem.complete]
    · have hslot : ({ x.complete now result with updatedAt := t } : WorkItem V).slot =
          { x.slot with phase := if (false : Bool) ∧ x.slot.taken < x.slot.limit then .waiting
            else .closed } := by
        simp [WorkItem.slot, WorkItem.complete]
      rw [hslot]
      exact .report hs hheld
  | fail i w' error retry =>
    cases hc
    refine .alter hl hx rfl rfl rfl (by simp [TimedCall.accepted]) (.inr rfl) ⟨?_, ?_⟩ rfl fun hs => ?_
    · simp only [WorkItem.fail]; split <;> simp
    · simp only [WorkItem.fail]; split <;> simp
    · have hslot : ({ x.fail now error retry with updatedAt := t } : WorkItem V).slot =
          { x.slot with phase := if retry ∧ x.slot.taken < x.slot.limit then .waiting
            else .closed } := by
        simp only [WorkItem.slot, WorkItem.fail]
        by_cases hr : retry = true ∧ x.attempts < x.maximumAttempts
        · simp [hr]
        · simp only [if_neg hr]
          exact congrArg (fun p => Lease.Slot.mk p _ _) (if_neg hr).symm
      rw [hslot]
      exact .report hs hheld

/-- **A call is a move of the ledger.** -/
theorem Answers.moved {rank : WorkItem V → Time × Time} {dup : WorkItem V → WorkItem V → Prop}
    {l l' : List (WorkItem V)} {c : TimedCall V} {r : Except Exn (QueueReply V)}
    (h : Answers rank dup l c r l') (hl : Shelf l)
    (hnew : ∀ x, c.call = .enqueue x → x.Unused ∧ ∀ y ∈ l, y.id ≠ x.id) : Moved l c r l' := by
  obtain ⟨call, now, later⟩ := c
  cases h with
  | present hc hy hd => cases hc; exact .still hl rfl (by simp)
  | idle hc _ => cases hc; exact .still hl rfl (by simp)
  | refuse hc _ hr =>
    rcases hr with rfl | ⟨⟨i, w, secs, hcall⟩, rfl⟩
    · exact .still hl (by cases call <;> rfl) (by simp)
    · cases hcall; exact .still hl rfl (by simp)
  | @insert x hc _ =>
    cases hc
    obtain ⟨hx, hids⟩ := hnew x rfl
    have hfind := findItem_append l hids
    refine ⟨⟨?_, ?_⟩, ?_, ?_, ?_, ?_, by simp⟩
    · rw [List.map_append, List.map_singleton, List.nodup_append]
      refine ⟨hl.ids, List.nodup_singleton _, fun a ha b hb => ?_⟩
      obtain ⟨y, hy, rfl⟩ := List.mem_map.1 ha
      rw [List.mem_singleton] at hb
      exact hb ▸ hids y hy
    · intro y hy
      rcases List.mem_append.1 hy with hy | hy
      · exact hl.proper y hy
      · rw [List.mem_singleton.1 hy]; exact hx.proper
    · rw [ledger_of_findItem hfind, hx.slot]
      refine .put ?_ (lt_of_lt_of_le Int.one_pos x.maximumAttempts_range.1)
      rw [ledger, findItem_eq_none.2 hids]
      rfl
    · intro id hne
      rw [hfind, if_neg]
      rintro rfl
      exact hne rfl
    · intro y hy
      rcases List.mem_append.1 hy with hy | hy
      · exact .inl ⟨y, hy, rfl, rfl⟩
      · rw [List.mem_singleton.1 hy]; exact .inr rfl
    · intro y hy hpos
      rcases List.mem_append.1 hy with hy | hy
      · exact .inr ⟨y, hy, hpos, rfl⟩
      · rw [List.mem_singleton.1 hy, hx.attempts] at hpos
        exact absurd hpos (lt_irrefl _)
  | @claim w secs x x' hc hx hel _ ha =>
    cases hc
    obtain ⟨t, rfl⟩ := ha
    refine .alter hl hx rfl rfl rfl (fun _ _ => ⟨w, secs, rfl⟩) (.inl ?_) ⟨?_, ?_⟩ rfl fun hs => ?_
    · exact (((hl.proper x hx).eligible_iff now).1 hel).1
    · simp [WorkItem.claim]
    · simp [WorkItem.claim]
    · exact .take hs (((hl.proper x hx).eligible_iff now).1 hel).2
  | update hc hx hid ho ha => exact .update hl hc hx hid ho ha

/-! ## Runs -/

/-- A call that enqueues no item of a known id. -/
def Novel (l : List (WorkItem V)) (c : TimedCall V) : Prop :=
  ∀ x, c.call = .enqueue x → x.Unused ∧ ∀ y ∈ l, y.id ≠ x.id

/-- Each call of the queue is a move of the ledger, and `claim` chooses from the eligible items. -/
structure WorkQueue.Lawful (Q : WorkQueue V) (Inv : Q.State → Prop) : Prop where
  init : Inv Q.init
  empty : Q.items Q.init = []
  step : ∀ {s c}, Inv s → Shelf (Q.items s) → Novel (Q.items s) c →
    Inv (Q.step c s).2 ∧ Moved (Q.items s) c (Q.step c s).1 (Q.items (Q.step c s).2)
  candidates : ∀ {s now x}, Inv s →
    (x ∈ Q.candidates s now ↔ x ∈ Q.items s ∧ x.eligible now)

theorem InMemoryWorkQueue.lawful : (queue V).Lawful Inv where
  init := Inv.empty
  empty := rfl
  step h hl hnew := by
    obtain ⟨hinv, hs⟩ := h.serves _ fun x hx => (hnew x hx).2
    exact ⟨hinv, hs.moved hl hnew⟩
  candidates _ := List.mem_filter

namespace PostgresWorkQueue

theorem items_map (es : List (Entry V)) :
    (es.map Entry.row).filterMap (fun r => WorkItem.validate r.item) = es.map fun e => e.item := by
  rw [List.filterMap_map]
  refine (List.filterMap_congr fun e _ => ?_).trans
    (congrFun (List.filterMap_eq_map (f := fun e : Entry V => e.item)) es)
  exact WorkItem.validate_dump e.item

/-- The columns of every row agree with its JSON. -/
def Inv (rows : List (WorkRow V)) : Prop := ∃ es : List (Entry V), rows = es.map Entry.row

theorem lawful {scan : List (WorkRow V) → List (WorkRow V)}
    (hscan : ∀ rows, (scan rows).Perm rows) : (queue scan).Lawful Inv where
  init := ⟨[], rfl⟩
  empty := rfl
  step := by
    rintro _ c ⟨es, rfl⟩ hl hnew
    have hitems : (queue scan).items (es.map Entry.row) = es.map fun e => e.item := items_map es
    rw [hitems] at hl hnew ⊢
    have hids : (es.map fun e => e.item.id).Nodup := by
      have := hl.ids
      rwa [List.map_map] at this
    obtain ⟨es', hrows, hserves, -⟩ := served (c := c) (fun _ => (0, 0)) hscan hids
      (fun _ _ _ _ _ => .inr ⟨rfl, le_refl _⟩)
      fun x hx => ⟨(hnew x hx).1, fun e he => (hnew x hx).2 _ (List.mem_map_of_mem he)⟩
    refine ⟨⟨es', hrows⟩, ?_⟩
    have hitems' : (queue scan).items (((queue scan).step c (es.map Entry.row)).2) =
        es'.map fun e => e.item := by
      rw [show ((queue scan).step c (es.map Entry.row)).2 = es'.map Entry.row from hrows]
      exact items_map es'
    rw [hitems']
    exact hserves.moved hl hnew
  candidates := by
    rintro _ now x ⟨es, rfl⟩
    have hitems : (queue scan).items (es.map Entry.row) = es.map fun e => e.item := items_map es
    have hcand : (queue scan).candidates (es.map Entry.row) now =
        ((es.filter fun e => e.item.eligible now).map fun e => e.item) := by
      rw [← items_map]
      show ((es.map Entry.row).filter (WorkRow.candidate now)).filterMap _ = _
      rw [List.filter_map]
      congr 3
      funext e
      exact e.candidate_row now
    rw [hitems, hcand]
    simp only [List.mem_map, List.mem_filter]
    constructor
    · rintro ⟨e, ⟨he, hel⟩, rfl⟩
      exact ⟨⟨e, he, rfl⟩, hel⟩
    · rintro ⟨⟨e, he, rfl⟩, hel⟩
      exact ⟨e, ⟨he, hel⟩, rfl⟩

end PostgresWorkQueue

theorem Regular.tail {c : TimedCall V} {past : List (TimedCall V)} (h : Regular (c :: past)) :
    Regular past := by
  have hsub : (enqueued past).Sublist (enqueued (c :: past)) :=
    List.Sublist.filterMap _ (List.sublist_cons_self _ _)
  exact ⟨fun x hx => h.unused x (hsub.subset hx), h.ids.sublist (hsub.map _),
    fun d hd => h.ends d (List.mem_cons_of_mem _ hd), (List.pairwise_cons.1 h.clock).2⟩

theorem Regular.suffix {past calls : List (TimedCall V)} (h : Regular calls)
    (hp : past <:+ calls) : Regular past := by
  obtain ⟨l, rfl⟩ := hp
  induction l with
  | nil => exact h
  | cons c l ih => exact ih h.tail

theorem enqueued_cons {c : TimedCall V} {x : WorkItem V} (hc : c.call = .enqueue x)
    (past : List (TimedCall V)) : enqueued (c :: past) = x :: enqueued past := by
  obtain ⟨call, now, later⟩ := c
  cases hc
  rfl

/-- What holds after the calls. -/
structure WorkQueue.Holds (Q : WorkQueue V) (calls : List (TimedCall V)) : Prop where
  shelf : Shelf (Q.items (Q.after calls))
  run : Lease.Run (Q.events calls) (ledger (Q.items (Q.after calls)))
  origin : ∀ x ∈ Q.items (Q.after calls), ∃ y ∈ enqueued calls,
    y.id = x.id ∧ y.maximumAttempts = x.maximumAttempts
  available : ∀ x ∈ Q.items (Q.after calls), 0 < x.attempts → ∃ c ∈ calls, x.availableAt ≤ c.now

section
variable {Q : WorkQueue V} {Inv : Q.State → Prop}

/-- An item is enqueued under an id that no stored item has. -/
theorem Regular.novel {c : TimedCall V} {past : List (TimedCall V)} (h : Regular (c :: past))
    (hQ : Q.Holds past) : Novel (Q.items (Q.after past)) c := by
  intro x hc
  have henq := enqueued_cons hc past
  refine ⟨h.unused x (henq ▸ List.mem_cons_self), fun y hy hid => ?_⟩
  obtain ⟨z, hz, hzid, -⟩ := hQ.origin y hy
  have hids := h.ids
  rw [henq, List.map_cons, List.nodup_cons] at hids
  exact hids.1 (List.mem_map.2 ⟨z, hz, hzid.trans hid⟩)

/-- **A run of a lawful queue is a run of the ledger.** -/
theorem WorkQueue.Lawful.holds (hQ : Q.Lawful Inv) : ∀ {calls : List (TimedCall V)},
    Regular calls → Inv (Q.after calls) ∧ Q.Holds calls
  | [], _ => by
    refine ⟨hQ.init, ?_, ?_, ?_, ?_⟩ <;> simp only [after, hQ.empty]
    · exact ⟨List.nodup_nil, fun x hx => absurd hx List.not_mem_nil⟩
    · exact .nil
    · exact fun x hx => absurd hx List.not_mem_nil
    · exact fun x hx => absurd hx List.not_mem_nil
  | c :: past, h => by
    obtain ⟨hinv, hpast⟩ := hQ.holds h.tail
    obtain ⟨hinv', hm⟩ := hQ.step hinv hpast.shelf (h.novel hpast)
    refine ⟨hinv', hm.shelf, .cons hpast.run hm.step, fun x hx => ?_, fun x hx hpos => ?_⟩
    · rcases hm.ids x hx with ⟨y, hy, hid, hmax⟩ | hc
      · obtain ⟨z, hz, hzid, hzmax⟩ := hpast.origin y hy
        refine ⟨z, ?_, hzid.trans hid, hzmax.trans hmax⟩
        exact (List.Sublist.filterMap _ (List.sublist_cons_self c past)).subset hz
      · exact ⟨x, by rw [enqueued_cons hc]; exact List.mem_cons_self, rfl, rfl⟩
    · rcases hm.available x hx hpos with ha | ⟨y, hy, hypos, hya⟩
      · exact ⟨c, List.mem_cons_self, ha⟩
      · obtain ⟨d, hd, hda⟩ := hpast.available y hy hypos
        exact ⟨d, List.mem_cons_of_mem _ hd, hya ▸ hda⟩

/-- The slot of a stored item says what the callers have seen. -/
theorem WorkQueue.Holds.agrees {calls : List (TimedCall V)} (h : Q.Holds calls) {x : WorkItem V}
    (hx : x ∈ Q.items (Q.after calls)) :
    x.attempts = Lease.taken x.id (Q.events calls) ∧
      x.leaseExpiresAt = Lease.expiry x.id (Q.events calls) := by
  have hfind := (findItem_eq_some h.shelf.ids).2 ⟨hx, rfl⟩
  have hslot : ledger (Q.items (Q.after calls)) x.id = some x.slot := by
    rw [ledger, hfind]; rfl
  obtain ⟨ht, he⟩ := h.run.agrees hslot
  refine ⟨ht, he ▸ ?_⟩
  have hp := h.shelf.proper x hx
  rcases hexp : x.leaseExpiresAt with _ | e
  · have hne : x.status ≠ .leased := fun hs => by
      have := hp.expires.1 hs
      rw [hexp] at this
      cases this
    match hs : x.status with
    | .leased => exact absurd hs hne
    | .pending | .completed | .failed => simp [WorkItem.slot, hs, Lease.Phase.expiry]
  · have hs := hp.expires.2 (by rw [hexp]; rfl)
    simp [WorkItem.slot, hs, hexp, Lease.Phase.expiry]

/-- An item that is finished stays as it is. -/
theorem WorkQueue.Lawful.finished_stays (hQ : Q.Lawful Inv) {calls past : List (TimedCall V)}
    (h : Regular calls) (hp : past <:+ calls) {x : WorkItem V}
    (hx : findItem (Q.items (Q.after past)) x.id = some x)
    (hf : x.status = .completed ∨ x.status = .failed) :
    findItem (Q.items (Q.after calls)) x.id = some x := by
  obtain ⟨l, rfl⟩ := hp
  induction l with
  | nil => exact hx
  | cons c l ih =>
    have h : Regular (c :: (l ++ past)) := h
    obtain ⟨hinv, hh⟩ := hQ.holds h.tail
    obtain ⟨-, hm⟩ := hQ.step hinv hh.shelf (h.novel hh)
    refine (hm.frame x.id (hm.step.closed_still (s := x.slot) ?_ ?_)).trans (ih h.tail)
    · show (findItem _ _).map _ = _
      rw [ih h.tail]; rfl
    · rcases hf with hf | hf <;> simp [WorkItem.slot, hf]

end

/-! ## Safety -/

section
variable {Q : WorkQueue V} {Inv : Q.State → Prop} {calls : List (TimedCall V)}

/-- An item is claimed under no running lease. -/
theorem WorkQueue.Lawful.claim_lapsed (hQ : Q.Lawful Inv) {c : TimedCall V}
    {past : List (TimedCall V)} (h : Regular (c :: past)) {x : WorkItem V}
    (hr : Q.reply past c = .ok (.claimed (some x))) {e : Time}
    (he : Lease.expiry x.id (Q.events past) = some e) : e ≤ c.now := by
  obtain ⟨hinv, hh⟩ := hQ.holds h.tail
  obtain ⟨-, hm⟩ := hQ.step hinv hh.shelf (h.novel hh)
  obtain ⟨w, secs, hc⟩ := hm.claimed x hr
  have hev : c.event (Q.reply past c) = .take x.id w c.now (c.now + secs) := by
    rw [hr]
    simp only [TimedCall.event, hc]
  have hs := hm.step
  rw [show c.event (Q.step c (Q.after past)).1 = _ from hev] at hs
  exact hh.run.take_lapsed hs he

/-- No item is claimed more often than it may be. -/
theorem WorkQueue.Lawful.claims_le (hQ : Q.Lawful Inv) (h : Regular calls) {x : WorkItem V}
    (hx : x ∈ enqueued calls) : Lease.taken x.id (Q.events calls) ≤ x.maximumAttempts := by
  obtain ⟨-, hh⟩ := hQ.holds h
  rcases hf : findItem (Q.items (Q.after calls)) x.id with _ | y
  · rw [(hh.run.silent (i := x.id) (by rw [ledger, hf]; rfl)).1]
    exact Int.le_of_lt (lt_of_lt_of_le Int.one_pos x.maximumAttempts_range.1)
  · obtain ⟨hy, hid⟩ := (findItem_eq_some hh.shelf.ids).1 hf
    obtain ⟨z, hz, hzid, hzmax⟩ := hh.origin y hy
    obtain rfl := List.inj_on_of_nodup_map h.ids hz hx (hzid.trans hid)
    have := hh.run.taken_le (i := z.id) (s := y.slot) (by rw [ledger, hf]; rfl)
    exact this.trans (le_of_eq hzmax.symm)

/-- **The leases of the queue in memory are safe**: no item is claimed while its lease runs or
    more often than it may be, a finished item stays as it is, and the items under a lease are the
    ones with an owner and an expiry. -/
theorem leases_safe (calls : List (TimedCall V)) (h : Regular calls) :
    let Q := InMemoryWorkQueue.queue V
    (∀ c past, c :: past <:+ calls → ∀ x, Q.reply past c = .ok (.claimed (some x)) →
      ∀ e, Lease.expiry x.id (Q.events past) = some e → e ≤ c.now) ∧
    (∀ x ∈ enqueued calls, Lease.taken x.id (Q.events calls) ≤ x.maximumAttempts) ∧
    (∀ past, past <:+ calls → ∀ x ∈ Q.items (Q.after past),
      x.status = .completed ∨ x.status = .failed →
        x ∈ Q.items (Q.after calls) ∧ ∀ y ∈ Q.items (Q.after calls), y.id = x.id → y = x) ∧
    ∀ x ∈ Q.items (Q.after calls), x.Proper ∧
      x.leaseExpiresAt = Lease.expiry x.id (Q.events calls) := by
  have hQ := InMemoryWorkQueue.lawful (V := V)
  obtain ⟨-, hh⟩ := hQ.holds h
  refine ⟨fun c past hp x hr e he => ?_, fun x hx => hQ.claims_le h hx, fun past hp x hx hf => ?_,
    fun x hx => ⟨hh.shelf.proper x hx, (hh.agrees hx).2⟩⟩
  · exact hQ.claim_lapsed (h.suffix hp) hr he
  · obtain ⟨-, hpast⟩ := hQ.holds (h.suffix hp)
    have hfind := hQ.finished_stays h hp ((findItem_eq_some hpast.shelf.ids).2 ⟨hx, rfl⟩) hf
    refine ⟨((findItem_eq_some hh.shelf.ids).1 hfind).1, fun y hy hid => ?_⟩
    have := (findItem_eq_some hh.shelf.ids).2 ⟨hy, hid⟩
    rw [hfind] at this
    exact (Option.some.inj this).symm

end

/-- An item that is enqueued and claimed. -/
def sampleItem (maximumAttempts : Int)
    (h : 1 ≤ maximumAttempts ∧ maximumAttempts ≤ 20 := by decide) : WorkItem Unit where
  id := "i"
  tenantId := "t"
  kind := "analytical_graph"
  deduplicationKey := "graph-1"
  payload := []
  maximumAttempts := maximumAttempts
  maximumAttempts_range := h
  availableAt := 0
  createdAt := 0
  updatedAt := 0

def sampleThree : WorkItem Unit := sampleItem 3

/-- A worker claims it for a second. -/
def sampleCalls (x : WorkItem Unit) : List (TimedCall Unit) :=
  [{ call := .claim "w" 1, now := 0 }, { call := .enqueue x, now := 0 }]

theorem sampleCalls_regular {x : WorkItem Unit} (h : x.Unused) : Regular (sampleCalls x) where
  unused y hy := by
    simp only [sampleCalls, enqueued, List.filterMap_cons, List.filterMap_nil,
      List.mem_singleton] at hy
    exact hy ▸ h
  ids := by simp [sampleCalls, enqueued]
  ends := by simp [sampleCalls]
  clock := by simp [sampleCalls]

theorem sampleCalls_later (x : WorkItem Unit) : ∀ c ∈ sampleCalls x, c.later ≤ 2 := by
  have h : (0 : Time) ≤ 2 := by decide +kernel
  simp [sampleCalls, h]

theorem leases_safe_sample : (sampleItem 3).Unused ∧ ∀ x ∈ (InMemoryWorkQueue.queue Unit).items
    ((InMemoryWorkQueue.queue Unit).after (sampleCalls (sampleItem 3))), x.Proper :=
  have h : (sampleItem 3).Unused := ⟨rfl, rfl, rfl, rfl, rfl, rfl⟩
  ⟨h, fun x hx => ((leases_safe _ (sampleCalls_regular h)).2.2.2 x hx).1⟩

/-! ## Stale leases -/

section
variable (Q : WorkQueue V)

/-- Every item that is not finished, may run and is under no running lease is eligible at this
    time, or the next claim moves it to `FAILED`. -/
def WorkQueue.Recovers (calls : List (TimedCall V)) (now : Time) : Prop :=
  ∀ x ∈ Q.items (Q.after calls), x.status ≠ .completed → x.status ≠ .failed →
    (∀ e, x.leaseExpiresAt = some e → e ≤ now) → x.availableAt ≤ now →
    x ∈ Q.candidates (Q.after calls) now ∨
      ∀ w secs, ∃ y ∈ Q.items (Q.step { call := .claim w secs, now } (Q.after calls)).2,
        y.id = x.id ∧ y.status = .failed

/-- The last claim that an item may have has been reported, or its lease still runs. -/
def WorkQueue.Reported (calls : List (TimedCall V)) (now : Time) : Prop :=
  ∀ x ∈ enqueued calls, Lease.taken x.id (Q.events calls) = x.maximumAttempts →
    ∀ e, Lease.expiry x.id (Q.events calls) = some e → now < e

end

section
variable {Q : WorkQueue V} {Inv : Q.State → Prop} {calls : List (TimedCall V)}

/-- An item that is not finished and under no running lease is eligible, but for the number of
    its attempts. -/
theorem WorkQueue.Holds.eligible_iff (hh : Q.Holds calls) {x : WorkItem V}
    (hx : x ∈ Q.items (Q.after calls)) {now : Time} (hc : x.status ≠ .completed)
    (hf : x.status ≠ .failed) (hl : ∀ e, x.leaseExpiresAt = some e → e ≤ now)
    (ha : x.availableAt ≤ now) : x.eligible now ↔ x.attempts < x.maximumAttempts := by
  have hp := hh.shelf.proper x hx
  have hphase : x.slot.phase ≠ .closed := by
    match hs : x.status with
    | .pending | .leased => simp [WorkItem.slot, hs]
    | .completed => exact absurd hs hc
    | .failed => exact absurd hs hf
  have hlapsed : ∀ e, x.slot.phase.expiry = some e → e ≤ now := by
    intro e he
    match hs : x.status with
    | .pending | .completed | .failed => simp [WorkItem.slot, hs, Lease.Phase.expiry] at he
    | .leased =>
      obtain ⟨e', he'⟩ := Option.isSome_iff_exists.1 (hp.expires.1 hs)
      simp only [WorkItem.slot, hs, he', Lease.Phase.expiry, Option.getD_some,
        Option.some.injEq] at he
      exact he ▸ hl e' he'
  rw [hp.eligible_iff, Lease.Slot.free_iff hphase hlapsed]
  exact and_iff_right ha

/-- A call that is no report of its holder leaves an exhausted item alone. -/
theorem WorkQueue.Lawful.exhausted_still (hQ : Q.Lawful Inv) (h : Regular calls) {c : TimedCall V}
    (hnew : Novel (Q.items (Q.after calls)) c) {x : WorkItem V}
    (hx : x ∈ Q.items (Q.after calls)) (hmax : x.maximumAttempts ≤ x.attempts)
    (hev : ∀ e, c.event (Q.reply calls c) ≠ .extend x.id e)
    (hev' : ∀ again, c.event (Q.reply calls c) ≠ .report x.id again) :
    findItem (Q.items (Q.step c (Q.after calls)).2) x.id = some x := by
  obtain ⟨hinv, hh⟩ := hQ.holds h
  obtain ⟨-, hm⟩ := hQ.step hinv hh.shelf hnew
  have hfind := (findItem_eq_some hh.shelf.ids).2 ⟨hx, rfl⟩
  refine (hm.frame x.id (hm.step.exhausted_still (s := x.slot) ?_ hmax hev hev')).trans hfind
  rw [ledger, hfind]
  rfl

/-- The items are recovered just when the last claims are reported. -/
theorem WorkQueue.Lawful.recovers_iff (hQ : Q.Lawful Inv) (h : Regular calls) {now : Time}
    (hnow : ∀ c ∈ calls, c.later ≤ now) : Q.Recovers calls now ↔ Q.Reported calls now := by
  obtain ⟨hinv, hh⟩ := hQ.holds h
  constructor
  · intro hr x hx hmax e he
    by_contra hlt
    have hle : e ≤ now := le_of_not_gt hlt
    -- the item is stored: there is a lease on it
    rcases hfind : findItem (Q.items (Q.after calls)) x.id with _ | y
    · rw [(hh.run.silent (i := x.id) (by rw [ledger, hfind]; rfl)).2] at he
      cases he
    obtain ⟨hy, hid⟩ := (findItem_eq_some hh.shelf.ids).1 hfind
    obtain ⟨z, hz, hzid, hzmax⟩ := hh.origin y hy
    obtain rfl := List.inj_on_of_nodup_map h.ids hz hx (hzid.trans hid)
    obtain ⟨ht, hexp⟩ := hh.agrees hy
    rw [hid] at ht hexp
    rw [he] at hexp
    have hfull : y.attempts = y.maximumAttempts := ht.trans (hmax.trans hzmax)
    have hleased : y.status = .leased :=
      (hh.shelf.proper y hy).expires.2 (by rw [hexp]; rfl)
    have hpos : 0 < y.attempts := by
      rw [hfull]; exact lt_of_lt_of_le Int.one_pos y.maximumAttempts_range.1
    obtain ⟨c, hc, hca⟩ := hh.available y hy hpos
    have hav : y.availableAt ≤ now := hca.trans ((h.ends c hc).trans (hnow c hc))
    have hlapsed : ∀ e', y.leaseExpiresAt = some e' → e' ≤ now := by
      intro e' he'
      rw [hexp] at he'
      cases he'
      exact hle
    rcases hr y hy (by simp [hleased]) (by simp [hleased]) hlapsed hav with hcand | hfail
    · have hel := ((hQ.candidates hinv).1 hcand).2
      rw [hh.eligible_iff hy (by simp [hleased]) (by simp [hleased]) hlapsed hav] at hel
      exact absurd hfull (ne_of_lt hel)
    · obtain ⟨u, hu, huid, huf⟩ := hfail "" 0
      have hnew : Novel (Q.items (Q.after calls)) { call := .claim "" 0, now } :=
        fun x hc => by cases hc
      have hstill := hQ.exhausted_still h hnew hy hfull.ge
        (by intro e; unfold TimedCall.event; split <;> simp_all)
        (by intro again; unfold TimedCall.event; split <;> simp_all)
      obtain ⟨-, hm⟩ := hQ.step hinv hh.shelf hnew
      rw [(findItem_eq_some hm.shelf.ids).2 ⟨hu, huid⟩] at hstill
      cases hstill
      rw [hleased] at huf
      cases huf
  · intro hr x hx hc hf hl ha
    refine .inl ((hQ.candidates hinv).2 ⟨hx, (hh.eligible_iff hx hc hf hl ha).2 ?_⟩)
    obtain ⟨ht, hexp⟩ := hh.agrees hx
    have hfind : ledger (Q.items (Q.after calls)) x.id = some x.slot := by
      rw [ledger, (findItem_eq_some hh.shelf.ids).2 ⟨hx, rfl⟩]; rfl
    have hs := hh.run.sound x.id x.slot hfind
    cases hstatus : x.status with
    | pending => exact hs.waiting (by simp [WorkItem.slot, hstatus])
    | completed => exact absurd hstatus hc
    | failed => exact absurd hstatus hf
    | leased =>
      obtain ⟨e, he⟩ := Option.isSome_iff_exists.1 ((hh.shelf.proper x hx).expires.1 hstatus)
      refine lt_of_le_of_ne hs.taken_le fun hfull => ?_
      obtain ⟨z, hz, hzid, hzmax⟩ := hh.origin x hx
      have hrun := hr z hz (by rw [hzid, ← ht, hzmax]; exact hfull) e (by rw [hzid, ← hexp, he])
      exact absurd (hl e he) (not_le.2 hrun)

end

/-- **Stale leases are recovered** in every state of either queue just when the last claim that
    an item may have has been reported or its lease still runs. -/
theorem stale_recovered {scan : List (WorkRow V) → List (WorkRow V)}
    (hscan : ∀ rows, (scan rows).Perm rows) (calls : List (TimedCall V)) (h : Regular calls)
    (now : Time) (hnow : ∀ c ∈ calls, c.later ≤ now) :
    ((InMemoryWorkQueue.queue V).Recovers calls now ↔
      (InMemoryWorkQueue.queue V).Reported calls now) ∧
    ((PostgresWorkQueue.queue scan).Recovers calls now ↔
      (PostgresWorkQueue.queue scan).Reported calls now) :=
  ⟨InMemoryWorkQueue.lawful.recovers_iff h hnow,
    (PostgresWorkQueue.lawful hscan).recovers_iff h hnow⟩

theorem stale_recovered_sample :
    (InMemoryWorkQueue.queue Unit).Recovers (sampleCalls (sampleItem 3)) 2 := by
  have h := stale_recovered (fun _ => .refl (id _)) (sampleCalls (sampleItem 3))
    (sampleCalls_regular ⟨rfl, rfl, rfl, rfl, rfl, rfl⟩) 2 (sampleCalls_later _)
  refine h.1.2 fun x hx htaken => ?_
  simp only [sampleCalls, enqueued, List.filterMap_cons, List.filterMap_nil,
    List.mem_singleton] at hx
  subst hx
  cases htaken

/-- The worker dies after the only claim: two seconds later its lease has lapsed, and the item is
    neither eligible nor moved to `FAILED`. -/
theorem stale_lost :
    ¬ (InMemoryWorkQueue.queue Unit).Recovers (sampleCalls (sampleItem 1)) 2 ∧
    ¬ (PostgresWorkQueue.queue id).Recovers (sampleCalls (sampleItem 1)) 2 := by
  have h : Regular (sampleCalls (sampleItem 1)) :=
    sampleCalls_regular ⟨rfl, rfl, rfl, rfl, rfl, rfl⟩
  have hnow := sampleCalls_later (sampleItem 1)
  have hx : sampleItem 1 ∈ enqueued (sampleCalls (sampleItem 1)) := List.mem_singleton_self _
  constructor
  · rw [InMemoryWorkQueue.lawful.recovers_iff h hnow]
    exact fun hr => absurd (hr _ hx rfl (0 + 1) rfl) (by decide +kernel)
  · have hlaw : (PostgresWorkQueue.queue (V := Unit) id).Lawful _ :=
      PostgresWorkQueue.lawful fun _ => .refl _
    rw [hlaw.recovers_iff h hnow]
    exact fun hr => absurd (hr _ hx rfl (0 + 1) rfl) (by decide +kernel)

end TracciaRuntime
