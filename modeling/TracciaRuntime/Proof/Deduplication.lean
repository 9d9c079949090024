/-
  Traccia Runtime formalization — deduplication in `InMemoryWorkQueue`.

  * `Paired`: the entries of the map are the stored items, each by its key and its id;
  * `Clear`: what the map and the items of a state must be like for an `enqueue`;
  * `deduplication_iff`: a history loses nothing just when each of its `enqueue` calls is clear;
  * `deduplication_lost`: an id that is used again under another key.
-/
import TracciaRuntime.Proof.Leases

namespace TracciaRuntime

open Py

variable {V : Type}

theorem WorkItem.key_of_fixed {x y : WorkItem V} (h : x.fixed = y.fixed) : x.key = y.key :=
  show x.fixed.key = y.fixed.key from congrArg WorkItem.key h

theorem WorkItem.id_of_fixed {x y : WorkItem V} (h : x.fixed = y.fixed) : x.id = y.id :=
  show x.fixed.id = y.fixed.id from congrArg WorkItem.id h

namespace InMemoryWorkQueue

/-- The entries of `_deduplication` are in bijection with the items of `_items`. -/
structure Paired (q : InMemoryWorkQueue V) : Prop where
  nodup : q.items.keys.Nodup
  ids : ∀ {id x}, q.items.get id = some x → x.id = id
  known : ∀ {k id}, q.deduplication.get k = some id → ∃ x, q.items.get id = some x ∧ x.key = k
  stored : ∀ {id x}, q.items.get id = some x → q.deduplication.get x.key = some id

/-- The key has an item whose id is not empty, or neither the key nor the id is in use. -/
def Clear (q : InMemoryWorkQueue V) (x : WorkItem V) : Prop :=
  match q.deduplication.get x.key with
  | some id => id ≠ ""
  | none => q.items.get x.id = none

/-- The state after the calls, the latest first. -/
abbrev after (calls : List (TimedCall V)) : InMemoryWorkQueue V := (queue V).after calls

/-- One of the calls is an `enqueue` of the item that is accepted. -/
def Accepted (calls : List (TimedCall V)) (x : WorkItem V) : Prop :=
  ∃ d past, (d :: past) <:+ calls ∧ d.call = .enqueue x ∧
    (queue V).reply past d = .ok (.enqueued x true)

/-- `enqueue` loses nothing in the course of the calls. -/
structure LosesNothing (calls : List (TimedCall V)) : Prop where
  paired : ∀ past, past <:+ calls → (after past).Paired
  kept : ∀ c past x, (c :: past) <:+ calls → c.call = .enqueue x →
    ∀ id y, (after past).items.get id = some y → (after (c :: past)).items.get id = some y
  answered : ∀ c past x y, (c :: past) <:+ calls → c.call = .enqueue x → Accepted past y →
    y.key = x.key → ∃ z, (queue V).reply past c = .ok (.enqueued z false) ∧ z.id = y.id ∧
      z.fixed = y.fixed

/-! ## One call -/

section
variable {q : InMemoryWorkQueue V}

theorem Paired.empty : ({} : InMemoryWorkQueue V).Paired where
  nodup := List.nodup_nil
  ids h := by cases h
  known h := by cases h
  stored h := by cases h

/-- Two keys do not share an item. -/
theorem Paired.key_inj (h : q.Paired) {k k' : String × String} {id : String}
    (hk : q.deduplication.get k = some id) (hk' : q.deduplication.get k' = some id) : k = k' := by
  obtain ⟨x, hx, rfl⟩ := h.known hk
  obtain ⟨y, hy, rfl⟩ := h.known hk'
  rw [hx] at hy
  cases hy
  rfl

theorem Paired.get_of_mem (h : q.Paired) {x : WorkItem V} (hx : x ∈ q.items.values) :
    q.items.get x.id = some x := by
  obtain ⟨⟨id, y⟩, hm, rfl⟩ := List.mem_map.1 hx
  have hget : q.items.get id = some y := Dict.get_of_mem h.nodup hm
  rw [h.ids hget]
  exact hget

/-- A stored item that is assigned to keeps its entry. -/
theorem Paired.put (h : q.Paired) {x x' : WorkItem V} (hx : q.items.get x'.id = some x)
    (hkey : x'.key = x.key) : (q.put x').Paired where
  nodup := Dict.nodup_keys_set _ _ h.nodup
  ids {id y} hy := by
    simp only [InMemoryWorkQueue.put, Dict.get_set] at hy
    split at hy
    · rename_i hid
      cases hy
      exact hid.symm
    · exact h.ids hy
  known {k id} hk := by
    obtain ⟨y, hy, hyk⟩ := h.known hk
    simp only [InMemoryWorkQueue.put, Dict.get_set]
    by_cases hid : id = x'.id
    · rw [hid, hx] at hy
      cases hy
      exact ⟨x', if_pos hid, hkey.trans hyk⟩
    · exact ⟨y, (if_neg hid).trans hy, hyk⟩
  stored {id y} hy := by
    simp only [InMemoryWorkQueue.put, Dict.get_set] at hy ⊢
    split at hy
    · rename_i hid
      cases hy
      rw [hkey, hid]
      exact h.stored hx
    · exact h.stored hy

/-- An item of a new key and a new id gets an entry. -/
theorem Paired.insert (h : q.Paired) {x : WorkItem V} (hk : q.deduplication.get x.key = none)
    (hid : q.items.get x.id = none) :
    (⟨q.items.set x.id x, q.deduplication.set x.key x.id⟩ : InMemoryWorkQueue V).Paired where
  nodup := Dict.nodup_keys_set _ _ h.nodup
  ids {id y} hy := by
    rw [Dict.get_set] at hy
    split at hy
    · rename_i he
      cases hy
      exact he.symm
    · exact h.ids hy
  known {k id} hk' := by
    simp only [Dict.get_set] at hk' ⊢
    split at hk'
    · rename_i he
      cases hk'
      exact ⟨x, if_pos rfl, he.symm⟩
    · obtain ⟨y, hy, hyk⟩ := h.known hk'
      refine ⟨y, ?_, hyk⟩
      rw [if_neg]
      · exact hy
      · rintro rfl
        rw [hid] at hy
        cases hy
  stored {id y} hy := by
    simp only [Dict.get_set] at hy ⊢
    split at hy
    · rename_i he
      cases hy
      rw [if_pos rfl, he]
    · have hy' := h.stored hy
      rw [if_neg]
      · exact hy'
      · intro he
        rw [he, hk] at hy'
        cases hy'

/-- What an `enqueue` does. -/
theorem Paired.enqueue_cases (h : q.Paired) (x : WorkItem V) :
    (∃ y, q.deduplication.get x.key = some y.id ∧ y.id ≠ "" ∧ q.items.get y.id = some y ∧
      q.enqueue x = (.ok (.enqueued y false), q)) ∨
    ((q.deduplication.get x.key = none ∨ q.deduplication.get x.key = some "") ∧
      q.enqueue x = (.ok (.enqueued x true),
        ⟨q.items.set x.id x, q.deduplication.set x.key x.id⟩)) := by
  unfold InMemoryWorkQueue.enqueue
  rcases hd : q.deduplication.get x.key with _ | id
  · exact .inr ⟨.inl rfl, rfl⟩
  · by_cases hid : id = ""
    · subst hid
      exact .inr ⟨.inr rfl, rfl⟩
    · obtain ⟨y, hy, -⟩ := h.known hd
      obtain rfl := h.ids hy
      refine .inl ⟨y, rfl, hid, hy, ?_⟩
      simp only [Option.filter_some, ne_eq, hid, not_false_eq_true, decide_true, if_true, hy]

/-- Every other call assigns to at most one stored item. -/
theorem Paired.step_put (h : q.Paired) {c : TimedCall V} (hc : ∀ x, c.call ≠ .enqueue x) :
    (step c q).2 = q ∨ ∃ x x', q.items.get x.id = some x ∧ x'.fixed = x.fixed ∧
      (step c q).2 = q.put x' := by
  have hupdate : ∀ {itemId w : String} {r : QueueReply V} {f : WorkItem V → WorkItem V},
      (∀ x, (f x).fixed = x.fixed) → (q.update itemId w r f).2 = q ∨
        ∃ x x', q.items.get x.id = some x ∧ x'.fixed = x.fixed ∧
          (q.update itemId w r f).2 = q.put x' := by
    intro itemId w r f hf
    unfold InMemoryWorkQueue.update owned
    rcases hg : q.items.get itemId with _ | x
    · exact .inl rfl
    · by_cases ho : x.owned w
      · refine .inr ⟨x, f x, ?_, hf x, by simp [ho]⟩
        rw [h.ids hg]
        exact hg
      · exact .inl (by simp [ho])
  obtain ⟨call, now, later⟩ := c
  cases call with
  | enqueue x => exact absurd rfl (hc x)
  | claim w secs =>
    simp only [step, InMemoryWorkQueue.claim]
    split
    · exact .inl rfl
    · rename_i x hx
      have hm := (List.mem_filter.1 (earliest_mem hx)).1
      exact .inr ⟨x, x.claim now w secs, h.get_of_mem hm, rfl, rfl⟩
  | renew id w secs => exact hupdate fun _ => rfl
  | complete id w result => exact hupdate fun _ => rfl
  | fail id w error retry => exact hupdate fun _ => rfl

end

/-! ## Histories -/

section
variable {calls past : List (TimedCall V)} {c : TimedCall V}

theorem Accepted.cons {x : WorkItem V} (h : Accepted calls x) : Accepted (c :: calls) x := by
  obtain ⟨d, past, hd, hcall, hr⟩ := h
  exact ⟨d, past, hd.trans (List.suffix_cons _ _), hcall, hr⟩

/-- The last call is the `enqueue`, or an earlier one is. -/
theorem Accepted.cases {x : WorkItem V} (h : Accepted (c :: calls) x) :
    (c.call = .enqueue x ∧ (queue V).reply calls c = .ok (.enqueued x true)) ∨
      Accepted calls x := by
  obtain ⟨d, past, hd, hcall, hr⟩ := h
  rcases List.suffix_cons_iff.1 hd with he | hd
  · cases he
    exact .inl ⟨hcall, hr⟩
  · exact .inr ⟨d, past, hd, hcall, hr⟩

theorem step_enqueue {x : WorkItem V} (hc : c.call = .enqueue x) (q : InMemoryWorkQueue V) :
    step c q = q.enqueue x := by
  obtain ⟨call, now, later⟩ := c
  cases hc
  rfl

theorem reply_enqueue {x : WorkItem V} (hc : c.call = .enqueue x) :
    (queue V).reply past c = ((after past).enqueue x).1 :=
  congrArg Prod.fst (step_enqueue hc _)

theorem after_enqueue {x : WorkItem V} (hc : c.call = .enqueue x) :
    after (c :: past) = ((after past).enqueue x).2 :=
  congrArg Prod.snd (step_enqueue hc _)

/-- Each entry of the map comes from an accepted `enqueue` of its key. -/
theorem origin (h : ∀ past, past <:+ calls → (after past).Paired) {k : String × String}
    {id : String} (hk : (after calls).deduplication.get k = some id) :
    ∃ x, Accepted calls x ∧ x.key = k := by
  induction calls generalizing k id with
  | nil => cases hk
  | cons c past ih =>
    have hp := h past (List.suffix_cons _ _)
    have hold : (after past).deduplication.get k = some id → ∃ x, Accepted (c :: past) x ∧
        x.key = k := fun hk => by
      obtain ⟨x, hx, hxk⟩ := ih (fun p hp => h p (hp.trans (List.suffix_cons _ _))) hk
      exact ⟨x, hx.cons, hxk⟩
    by_cases hc : ∃ x, c.call = .enqueue x
    · obtain ⟨x, hc⟩ := hc
      rw [after_enqueue hc] at hk
      rcases hp.enqueue_cases x with ⟨y, -, -, -, he⟩ | ⟨-, he⟩
      · rw [he] at hk
        exact hold hk
      · rw [he, Dict.get_set] at hk
        split at hk
        · rename_i hkx
          exact ⟨x, ⟨c, past, List.suffix_rfl, hc, (reply_enqueue hc).trans (by rw [he])⟩,
            hkx.symm⟩
        · exact hold hk
    · have hdedup : (after (c :: past)).deduplication = (after past).deduplication := by
        show (step c (after past)).2.deduplication = _
        rcases hp.step_put (c := c) fun x hx => hc ⟨x, hx⟩ with he | ⟨x, x', -, -, he⟩
        · rw [he]
        · rw [he]
          rfl
      rw [hdedup] at hk
      exact hold hk

/-- What holds after calls that are clear: the accepted items are still there. -/
structure Held (calls : List (TimedCall V)) : Prop where
  paired : (after calls).Paired
  accepted : ∀ {x}, Accepted calls x → ∃ y, (after calls).items.get x.id = some y ∧
    y.fixed = x.fixed

theorem Held.other (h : Held past) (hc : ∀ x, c.call ≠ .enqueue x) : Held (c :: past) := by
  have hacc : ∀ {x}, Accepted (c :: past) x → Accepted past x := fun hx => by
    rcases hx.cases with ⟨he, -⟩ | hx
    · exact absurd he (hc _)
    · exact hx
  rcases h.paired.step_put hc with he | ⟨x, x', hx, hf, he⟩
  · have he : after (c :: past) = after past := he
    refine ⟨he ▸ h.paired, fun hy => ?_⟩
    rw [he]
    exact h.accepted (hacc hy)
  · have he : after (c :: past) = (after past).put x' := he
    have hid := WorkItem.id_of_fixed hf
    refine ⟨he ▸ h.paired.put (hid ▸ hx) (WorkItem.key_of_fixed hf), fun {z} hz => ?_⟩
    obtain ⟨y, hy, hyz⟩ := h.accepted (hacc hz)
    rw [he]
    simp only [InMemoryWorkQueue.put, Dict.get_set]
    by_cases hzx : z.id = x'.id
    · rw [hzx, hid, hx] at hy
      cases hy
      exact ⟨x', if_pos hzx, hf.trans hyz⟩
    · exact ⟨y, (if_neg hzx).trans hy, hyz⟩

/-- A clear `enqueue` finds the item of its key, or adds one. -/
theorem Clear.enqueue {q : InMemoryWorkQueue V} {x : WorkItem V} (h : q.Paired)
    (hx : q.Clear x) :
    (∃ y, q.deduplication.get x.key = some y.id ∧ q.items.get y.id = some y ∧
      q.enqueue x = (.ok (.enqueued y false), q)) ∨
    (q.deduplication.get x.key = none ∧ q.items.get x.id = none ∧
      q.enqueue x = (.ok (.enqueued x true),
        ⟨q.items.set x.id x, q.deduplication.set x.key x.id⟩)) := by
  unfold Clear at hx
  rcases h.enqueue_cases x with ⟨y, hk, -, hy, he⟩ | ⟨hk | hk, he⟩
  · exact .inl ⟨y, hk, hy, he⟩
  · rw [hk] at hx
    exact .inr ⟨hk, hx, he⟩
  · rw [hk] at hx
    exact absurd rfl hx

theorem Held.enqueue (h : Held past) {x : WorkItem V} (hc : c.call = .enqueue x)
    (hx : (after past).Clear x) : Held (c :: past) := by
  rcases hx.enqueue h.paired with ⟨y, -, -, he⟩ | ⟨hk, hid, he⟩
  · have hafter : after (c :: past) = after past := by rw [after_enqueue hc, he]
    refine ⟨hafter ▸ h.paired, fun {z} hz => ?_⟩
    rw [hafter]
    rcases hz.cases with ⟨-, hr⟩ | hz
    · rw [reply_enqueue hc, he] at hr
      cases hr
    · exact h.accepted hz
  · have hafter := (after_enqueue hc).trans (congrArg Prod.snd he)
    refine ⟨hafter ▸ h.paired.insert hk hid, fun {z} hz => ?_⟩
    rw [hafter, Dict.get_set]
    rcases hz.cases with ⟨hz, -⟩ | hz
    · rw [hc] at hz
      cases hz
      exact ⟨x, if_pos rfl, rfl⟩
    · obtain ⟨y, hy, hyz⟩ := h.accepted hz
      refine ⟨y, ?_, hyz⟩
      rw [if_neg]
      · exact hy
      · intro he
        rw [he, hid] at hy
        cases hy

theorem held (h : ∀ c past x, (c :: past) <:+ calls → c.call = .enqueue x →
    (after past).Clear x) : Held calls := by
  induction calls with
  | nil =>
    refine ⟨.empty, fun hx => ?_⟩
    obtain ⟨d, past, hd, -⟩ := hx
    exact absurd (List.suffix_nil.1 hd) (List.cons_ne_nil _ _)
  | cons c past ih =>
    have hp := ih fun d p x hd => h d p x (hd.trans (List.suffix_cons _ _))
    by_cases hc : ∃ x, c.call = .enqueue x
    · obtain ⟨x, hc⟩ := hc
      exact hp.enqueue hc (h c past x List.suffix_rfl hc)
    · exact hp.other fun x hx => hc ⟨x, hx⟩

end

/-- **Deduplication loses nothing** in a history of calls just when each of its `enqueue` calls
    either finds an item of its tenant and key, under an id that is not empty, or uses both a
    key and an id that are new. -/
theorem deduplication_iff (calls : List (TimedCall V)) :
    LosesNothing calls ↔ ∀ c past x, (c :: past) <:+ calls → c.call = .enqueue x →
      (after past).Clear x := by
  constructor
  · intro h c past x hs hc
    have hsuffix := (List.suffix_cons c past).trans hs
    have hp := h.paired past hsuffix
    unfold Clear
    rcases hk : (after past).deduplication.get x.key with _ | id
    · -- the key is new: a stored item of the id would be replaced by one of another key
      rcases hid : (after past).items.get x.id with _ | y
      · rfl
      have hkept := h.kept c past x hs hc _ _ hid
      rcases hp.enqueue_cases x with ⟨z, hz, -⟩ | ⟨-, he⟩
      · rw [hk] at hz
        cases hz
      · rw [after_enqueue hc, he, Dict.get_set_self] at hkept
        cases hkept
        rw [hp.stored hid] at hk
        cases hk
    · -- the entry of an empty id is not seen, so that the item is accepted once more
      rintro rfl
      obtain ⟨y, hy, hyk⟩ := origin (fun p hp => h.paired p (hp.trans hsuffix)) hk
      obtain ⟨z, hr, -⟩ := h.answered c past x y hs hc hy hyk
      rcases hp.enqueue_cases x with ⟨w, hw, hne, -⟩ | ⟨-, he⟩
      · rw [hk] at hw
        exact hne (Option.some.inj hw).symm
      · rw [reply_enqueue hc, he] at hr
        cases hr
  · intro h
    have hheld : ∀ past, past <:+ calls → Held past := fun past hp =>
      held fun d p x hd => h d p x (hd.trans hp)
    refine ⟨fun past hp => (hheld past hp).paired, ?_, ?_⟩
    · intro c past x hs hc id y hy
      have hp := hheld past ((List.suffix_cons c past).trans hs)
      rw [after_enqueue hc]
      rcases (h c past x hs hc).enqueue hp.paired with ⟨z, -, -, he⟩ | ⟨-, hid, he⟩
      · rw [he]
        exact hy
      · rw [he]
        refine (Dict.get_set_ne fun hix => ?_).trans hy
        rw [hix, hid] at hy
        cases hy
    · intro c past x y hs hc hy hyk
      have hp := hheld past ((List.suffix_cons c past).trans hs)
      obtain ⟨z, hz, hzy⟩ := hp.accepted hy
      have hk := hp.paired.stored hz
      rw [WorkItem.key_of_fixed hzy, hyk] at hk
      rcases (h c past x hs hc).enqueue hp.paired with ⟨w, hw, hget, he⟩ | ⟨hnone, -⟩
      · rw [hk] at hw
        have hid : y.id = w.id := Option.some.inj hw
        rw [← hid, hz] at hget
        cases hget
        exact ⟨z, (reply_enqueue hc).trans (by rw [he]), hid.symm, hzy⟩
      · rw [hk] at hnone
        cases hnone

end InMemoryWorkQueue

/-- An item of the same id under another key takes the place of the first one. -/
theorem deduplication_lost :
    ¬ ∀ calls : List (TimedCall Unit), InMemoryWorkQueue.LosesNothing calls := fun h => by
  have hkept := (h [⟨.enqueue { sampleItem 3 with deduplicationKey := "graph-2" }, 0, 0⟩,
    ⟨.enqueue (sampleItem 3), 0, 0⟩]).kept _ _ _ List.suffix_rfl rfl "i" (sampleItem 3) rfl
  exact absurd hkept (by decide)

end TracciaRuntime
