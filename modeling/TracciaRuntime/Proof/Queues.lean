/-
  Traccia Runtime formalization — the two work queues agree.

  * `Answers.same`: two queues with the same items up to `updated_at` answer a call alike;
  * `Alongside`: the queues after the same calls;
  * `queues_agree_iff`: the queues agree just when the items are first enqueued in the order of
    their creation and none under the key of an item with the empty id, which
    `InMemoryWorkQueue.enqueue` takes for no item.
-/
import TracciaRuntime.Proof.Leases

namespace TracciaRuntime

open Py

variable {V : Type}

/-! ## What the claim compares -/

/-- Equal replies, up to the `updated_at` of the items. -/
def QueueReply.Same : Except Exn (QueueReply V) → Except Exn (QueueReply V) → Prop
  | .ok (.enqueued x b), .ok (.enqueued y b') => x.Alike y ∧ b = b'
  | .ok (.claimed (some x)), .ok (.claimed (some y)) => x.Alike y
  | r, r' => r = r'

/-- The columns agree with the fields of the JSON. -/
structure WorkRow.Agrees (r : WorkRow V) : Prop where
  status : r.item.get "status" = some (.string r.status)
  attempts : r.item.get "attempts" = some (.number r.attempts)
  leaseOwner : r.item.get "lease_owner" = some (.nullable .string r.leaseOwner)
  leaseExpiresAt : r.item.get "lease_expires_at" = some (.nullable .time r.leaseExpiresAt)
  result : r.item.get "result" = some (.nullable .object r.result)
  error : r.item.get "error" = some (.nullable .string r.error)

/-- The columns `created_at` are ordered as the items' `created_at`. -/
def WorkRow.Ordered (rows : List (WorkRow V)) : Prop :=
  ∀ r ∈ rows, ∀ s ∈ rows, ∀ a b, r.item.get "created_at" = some (.time a) →
    s.item.get "created_at" = some (.time b) → (r.createdAt < s.createdAt ↔ a < b)

/-- The items that a table with one row a key keeps, with the times at which they came. -/
def kept : List (TimedCall V) → List (WorkItem V × Time)
  | [] => []
  | c :: past =>
    match c.call with
    | .enqueue x => if ∃ p ∈ kept past, p.1.key = x.key then kept past else kept past ++ [(x, c.now)]
    | _ => kept past

section
variable (scan : List (WorkRow V) → List (WorkRow V)) (calls : List (TimedCall V))

/-- The table after the calls. -/
def PostgresWorkQueue.rows : List (WorkRow V) := (PostgresWorkQueue.queue scan).after calls

/-- **The queues agree** on these calls. -/
structure QueuesAgree : Prop where
  replies : ∀ c past, c :: past <:+ calls → QueueReply.Same
    ((InMemoryWorkQueue.queue V).reply past c) ((PostgresWorkQueue.queue scan).reply past c)
  columns : ∀ past, past <:+ calls → ∀ r ∈ PostgresWorkQueue.rows scan past, r.Agrees
  ordered : ∀ past, past <:+ calls → WorkRow.Ordered (PostgresWorkQueue.rows scan past)

/-- Items come in the order of their creation. -/
def InCreationOrder : Prop :=
  ∀ p ∈ kept calls, ∀ q ∈ kept calls, p.2 < q.2 ↔ p.1.createdAt < q.1.createdAt

/-- No item comes under the key of an earlier one with the empty id. -/
def NoEmptyId : Prop :=
  ∀ c past x, c :: past <:+ calls → c.call = .enqueue x → ∀ p ∈ kept past,
    p.1.key = x.key → p.1.id ≠ ""

end

/-! ## Up to `updated_at` -/

namespace WorkItem

def stampless (x : WorkItem V) : WorkItem V := { x with updatedAt := 0 }

theorem alike_iff {x y : WorkItem V} : x.Alike y ↔ x.stampless = y.stampless := by
  constructor
  · rintro ⟨t, rfl⟩; rfl
  · intro h
    refine ⟨y.updatedAt, ?_⟩
    have : { y.stampless with updatedAt := y.updatedAt } = y := rfl
    rw [← this, ← h]
    rfl

theorem Alike.symm {x y : WorkItem V} (h : x.Alike y) : y.Alike x :=
  alike_iff.2 (alike_iff.1 h).symm

theorem Alike.trans {x y z : WorkItem V} (h : x.Alike y) (h' : y.Alike z) : x.Alike z :=
  alike_iff.2 ((alike_iff.1 h).trans (alike_iff.1 h'))

end WorkItem

/-- The assignments do not look at `updated_at`. -/
theorem TimedCall.assignment_alike {c : TimedCall V} {i w : String} {f : WorkItem V → WorkItem V}
    (hc : c.assignment = some (i, w, f)) {x y : WorkItem V} (h : x.Alike y) :
    (f x).Alike (f y) := by
  obtain ⟨t, rfl⟩ := h
  obtain ⟨call, now, later⟩ := c
  cases call <;> cases hc <;> exact .rfl

theorem TimedCall.assignment_id {c : TimedCall V} {i w : String} {f : WorkItem V → WorkItem V}
    (hc : c.assignment = some (i, w, f)) (x : WorkItem V) : (f x).id = x.id := by
  obtain ⟨call, now, later⟩ := c
  cases call <;> cases hc <;> rfl

/-- The same items, up to `updated_at`. -/
def SameItems (l m : List (WorkItem V)) : Prop :=
  l.map WorkItem.stampless = m.map WorkItem.stampless

theorem SameItems.symm {l m : List (WorkItem V)} (h : SameItems l m) : SameItems m l :=
  Eq.symm h

theorem SameItems.mem {l m : List (WorkItem V)} (h : SameItems l m) {x : WorkItem V}
    (hx : x ∈ l) : ∃ y ∈ m, x.Alike y := by
  have hm : x.stampless ∈ m.map WorkItem.stampless := h ▸ List.mem_map_of_mem hx
  obtain ⟨y, hy, hyx⟩ := List.mem_map.1 hm
  exact ⟨y, hy, WorkItem.alike_iff.2 hyx.symm⟩

theorem SameItems.alter {l m : List (WorkItem V)} (h : SameItems l m) {x y : WorkItem V}
    (hxy : x.Alike y) : SameItems (alter l x) (alter m y) := by
  have hmap : ∀ (l : List (WorkItem V)) (x : WorkItem V),
      (TracciaRuntime.alter l x).map WorkItem.stampless =
        (l.map WorkItem.stampless).map fun z => if z.id = x.id then x.stampless else z := by
    intro l x
    rw [TracciaRuntime.alter, List.map_map, List.map_map]
    refine List.map_congr_left fun z _ => ?_
    simp only [Function.comp]
    split
    · rename_i hz; exact (if_pos hz).symm
    · rename_i hz; exact (if_neg hz).symm
  have hid : x.id = y.id := by obtain ⟨t, rfl⟩ := hxy; rfl
  rw [SameItems, hmap, hmap, h, hid, WorkItem.alike_iff.1 hxy]

/-! ## A call -/

/-- The calls but for `renew`, of which the queues answer one on an item of another worker
    differently. -/
def TimedCall.NoRenew (c : TimedCall V) : Prop := ∀ i w secs, c.call ≠ .renew i w secs

/-- The parts of an item that decide about a call do not change with `updated_at`. -/
theorem WorkItem.Alike.parts {x y : WorkItem V} (h : x.Alike y) :
    x.id = y.id ∧ x.key = y.key ∧ InMemoryWorkQueue.rank x = InMemoryWorkQueue.rank y ∧
      (∀ now, x.eligible now = y.eligible now) ∧ ∀ w, x.owned w = y.owned w := by
  obtain ⟨t, rfl⟩ := h
  refine ⟨?_, ?_, ?_, fun _ => ?_, fun _ => ?_⟩ <;> rfl

section
variable {l m l' m' : List (WorkItem V)} {c : TimedCall V} {r r' : Except Exn (QueueReply V)}

/-- **Queues with the same items answer alike.** -/
theorem Answers.same
    (h : Answers InMemoryWorkQueue.rank InMemoryWorkQueue.Dup l c r l')
    (h' : Answers InMemoryWorkQueue.rank PostgresWorkQueue.SameKey m c r' m')
    (hlm : SameItems l m) (hids : (l.map fun x => x.id).Nodup)
    (hkeys : (l.map fun x => x.key).Nodup) (hrank : (l.map InMemoryWorkQueue.rank).Nodup)
    (hc : c.NoRenew)
    (hid : ∀ x, c.call = .enqueue x → ∀ y ∈ l, y.key = x.key → y.id ≠ "") :
    QueueReply.Same r r' ∧ SameItems l' m' := by
  cases h with
  | @present x y hcall hy hd =>
    cases h' with
    | @present x' y' hcall' hy' hk =>
      obtain rfl : x = x' := by rw [hcall] at hcall'; cases hcall'; rfl
      obtain ⟨z, hz, hzy⟩ := hlm.symm.mem hy'
      have hkey : z.key = y.key := (hzy.parts.2.1.symm.trans hk).trans hd.1.symm
      obtain rfl := List.inj_on_of_nodup_map hkeys hz hy hkey
      exact ⟨⟨hzy.symm, rfl⟩, hlm⟩
    | @insert x' hcall' hno =>
      obtain rfl : x = x' := by rw [hcall] at hcall'; cases hcall'; rfl
      obtain ⟨y', hy', hyy⟩ := hlm.mem hy
      exact absurd (hyy.parts.2.1.symm.trans hd.1) (hno y' hy')
    | claim hcall' | idle hcall' => rw [hcall] at hcall'; cases hcall'
    | update ha | refuse ha => simp [TimedCall.assignment, hcall] at ha
  | @insert x hcall hno =>
    cases h' with
    | @present x' y' hcall' hy' hk =>
      obtain rfl : x = x' := by rw [hcall] at hcall'; cases hcall'; rfl
      obtain ⟨z, hz, hzy⟩ := hlm.symm.mem hy'
      have hkey : z.key = x.key := hzy.parts.2.1.symm.trans hk
      exact absurd ⟨hkey, hid x hcall z hz hkey⟩ (hno z hz)
    | @insert x' hcall' _ =>
      obtain rfl : x = x' := by rw [hcall] at hcall'; cases hcall'; rfl
      refine ⟨⟨.rfl, rfl⟩, ?_⟩
      rw [SameItems, List.map_append, List.map_append, hlm]
    | claim hcall' | idle hcall' => rw [hcall] at hcall'; cases hcall'
    | update ha | refuse ha => simp [TimedCall.assignment, hcall] at ha
  | @claim w secs x x₁ hcall hx hel hmin hx₁ =>
    cases h' with
    | present hcall' | insert hcall' => rw [hcall] at hcall'; cases hcall'
    | @claim w' secs' y y₁ hcall' hy hel' hmin' hy₁ =>
      rw [hcall] at hcall'
      cases hcall'
      -- both are the first of the eligible items
      obtain ⟨z, hz, hyz⟩ := hlm.symm.mem hy
      obtain ⟨u, hu, hxu⟩ := hlm.mem hx
      have hxz := hmin z hz (by rw [← hyz.parts.2.2.2.1]; exact hel')
      have hyu := hmin' u hu (by rw [← hxu.parts.2.2.2.1]; exact hel)
      rw [hyz.parts.2.2.1, ← hxu.parts.2.2.1] at hyu
      obtain rfl := List.inj_on_of_nodup_map hrank hx hz (WorkItem.before_antisymm hxz hyu)
      have hclaim : (x.claim c.now w secs).Alike (y.claim c.now w secs) := by
        obtain ⟨t, rfl⟩ := hyz
        exact .rfl
      have hsame := (hx₁.symm.trans hclaim).trans hy₁
      exact ⟨hsame, hlm.alter hsame⟩
    | idle hcall' hno =>
      obtain ⟨u, hu, hxu⟩ := hlm.mem hx
      have := hno u hu
      rw [← hxu.parts.2.2.2.1, hel] at this
      cases this
    | update ha | refuse ha => simp [TimedCall.assignment, hcall] at ha
  | idle hcall hno =>
    cases h' with
    | present hcall' | insert hcall' => rw [hcall] at hcall'; cases hcall'
    | @claim _ _ y _ hcall' hy hel' _ _ =>
      obtain ⟨z, hz, hyz⟩ := hlm.symm.mem hy
      have := hno z hz
      rw [← hyz.parts.2.2.2.1, hel'] at this
      cases this
    | idle _ _ => exact ⟨rfl, hlm⟩
    | update ha | refuse ha => simp [TimedCall.assignment, hcall] at ha
  | @update i w f x x₁ ha hx hxid ho hx₁ =>
    cases h' with
    | present hcall' | insert hcall' | claim hcall' | idle hcall' =>
      simp [TimedCall.assignment, hcall'] at ha
    | @update i' w' f' y y₁ ha' hy hyid ho' hy₁ =>
      rw [ha] at ha'
      cases ha'
      obtain ⟨z, hz, hyz⟩ := hlm.symm.mem hy
      obtain rfl := List.inj_on_of_nodup_map hids hz hx
        ((hyz.parts.1.symm.trans hyid).trans hxid.symm)
      have hsame := (hx₁.symm.trans (TimedCall.assignment_alike ha hyz.symm)).trans hy₁
      refine ⟨?_, hlm.alter hsame⟩
      rcases hacc : c.accepted with ⟨_⟩ | ⟨_ | _⟩ | _ | _
      all_goals first | rfl | exact ⟨.rfl, rfl⟩ | exact .rfl
    | refuse ha' hno _ =>
      rw [ha] at ha'
      cases ha'
      obtain ⟨u, hu, hxu⟩ := hlm.mem hx
      have := hno u hu (hxu.parts.1.symm.trans hxid)
      rw [← hxu.parts.2.2.2.2, ho] at this
      cases this
  | @refuse i w f _ ha hno hr =>
    cases h' with
    | present hcall' | insert hcall' | claim hcall' | idle hcall' =>
      simp [TimedCall.assignment, hcall'] at ha
    | @update i' w' f' y y₁ ha' hy hyid ho' hy₁ =>
      rw [ha] at ha'
      cases ha'
      obtain ⟨z, hz, hyz⟩ := hlm.symm.mem hy
      have := hno z hz (hyz.parts.1.symm.trans hyid)
      rw [← hyz.parts.2.2.2.2, ho'] at this
      cases this
    | refuse _ _ hr' =>
      have herr : ∀ {r : Except Exn (QueueReply V)}, c.Refused r →
          r = .error (.conflict .leaseNotOwned) := by
        rintro r (hr | ⟨⟨i, w, secs, hcall⟩, -⟩)
        · exact hr
        · exact absurd hcall (hc i w secs)
      rw [herr hr, herr hr']
      exact ⟨rfl, hlm⟩

end

/-! ## Runs -/

open PostgresWorkQueue

/-- The rows after the calls, with the entries that they show. -/
structure Tabled (scan : List (WorkRow V) → List (WorkRow V)) (calls : List (TimedCall V))
    (es : List (Entry V)) : Prop where
  rows : PostgresWorkQueue.rows scan calls = es.map Entry.row
  shelf : Shelf (es.map fun e => e.item)
  stamps : stamps es = (kept calls).map fun p => (p.1.fixed, p.2)
  origin : ∀ e ∈ es, ∃ x ∈ enqueued calls, x.id = e.item.id

theorem kept_keys (calls : List (TimedCall V)) : ((kept calls).map fun p => p.1.key).Nodup := by
  induction calls with
  | nil => exact List.nodup_nil
  | cons c past ih =>
    simp only [kept]
    split
    · rename_i x hc
      split
      · exact ih
      · rename_i hno
        rw [List.map_append, List.map_singleton, List.nodup_append]
        refine ⟨ih, List.nodup_singleton _, fun a ha b hb => ?_⟩
        obtain ⟨p, hp, rfl⟩ := List.mem_map.1 ha
        rw [List.mem_singleton] at hb
        exact fun hk => hno ⟨p, hp, hk.trans hb⟩
    · exact ih

/-- The items that are kept have been enqueued, in this order. -/
theorem kept_sublist (calls : List (TimedCall V)) :
    ((kept calls).map fun p => p.1).Sublist (enqueued calls).reverse := by
  induction calls with
  | nil => exact .slnil
  | cons c past ih =>
    simp only [kept]
    split
    · rename_i x hc
      rw [enqueued_cons hc, List.reverse_cons]
      split
      · exact ih.trans (List.sublist_append_left _ _)
      · rw [List.map_append]
        exact ih.append (.refl _)
    · exact ih.trans (List.Sublist.reverse (List.Sublist.filterMap _ (List.sublist_cons_self _ _)))

section
variable {scan : List (WorkRow V) → List (WorkRow V)} {calls past : List (TimedCall V)}
  {es es' : List (Entry V)} {c : TimedCall V}

theorem Tabled.mem_kept (h : Tabled scan calls es) {e : Entry V} (he : e ∈ es) :
    ∃ p ∈ kept calls, p.1.fixed = e.item.fixed ∧ p.2 = e.createdAt := by
  have hm : (e.item.fixed, e.createdAt) ∈ PostgresWorkQueue.stamps es :=
    List.mem_map_of_mem (f := fun e : Entry V => (e.item.fixed, e.createdAt)) he
  rw [h.stamps] at hm
  obtain ⟨p, hp, hpe⟩ := List.mem_map.1 hm
  exact ⟨p, hp, congrArg Prod.fst hpe, congrArg Prod.snd hpe⟩

theorem Tabled.mem_entries (h : Tabled scan calls es) {p : WorkItem V × Time}
    (hp : p ∈ kept calls) : ∃ e ∈ es, e.item.fixed = p.1.fixed ∧ e.createdAt = p.2 := by
  have hm : (p.1.fixed, p.2) ∈ PostgresWorkQueue.stamps es := by
    rw [h.stamps]
    exact List.mem_map_of_mem (f := fun p : WorkItem V × Time => (p.1.fixed, p.2)) hp
  obtain ⟨e, he, hpe⟩ := List.mem_map.1 hm
  exact ⟨e, he, congrArg Prod.fst hpe, congrArg Prod.snd hpe⟩

/-- The fields that no method assigns. -/
theorem WorkItem.of_fixed {x y : WorkItem V} (h : x.fixed = y.fixed) :
    x.id = y.id ∧ x.key = y.key ∧ x.createdAt = y.createdAt ∧
      InMemoryWorkQueue.rank x = InMemoryWorkQueue.rank y := by
  have hid : x.fixed.id = y.fixed.id := congrArg (fun z => z.id) h
  have hkey : x.fixed.key = y.fixed.key := congrArg WorkItem.key h
  have hat : x.fixed.createdAt = y.fixed.createdAt := congrArg (fun z => z.createdAt) h
  have hrank : InMemoryWorkQueue.rank x.fixed = InMemoryWorkQueue.rank y.fixed :=
    congrArg InMemoryWorkQueue.rank h
  exact ⟨hid, hkey, hat, hrank⟩

theorem Tabled.map_fixed (h : Tabled scan calls es) {β : Type} {f : WorkItem V → β}
    (hf : ∀ x : WorkItem V, f x.fixed = f x) :
    (es.map fun e => e.item).map f = (kept calls).map fun p => f p.1 := by
  have hs := congrArg (List.map fun p : WorkItem V × Time => f p.1) h.stamps
  simp only [PostgresWorkQueue.stamps, List.map_map, Function.comp_def, hf] at hs
  rw [List.map_map]
  exact hs

/-- An item comes under a new id. -/
theorem Tabled.novel (h : Tabled scan past es) (hreg : Regular (c :: past)) (x : WorkItem V)
    (hc : c.call = .enqueue x) : x.Unused ∧ ∀ e ∈ es, e.item.id ≠ x.id := by
  have henq := enqueued_cons hc past
  refine ⟨hreg.unused x (henq ▸ List.mem_cons_self), fun e he hid => ?_⟩
  obtain ⟨z, hz, hzid⟩ := h.origin e he
  have hids := hreg.ids
  rw [henq, List.map_cons, List.nodup_cons] at hids
  exact hids.1 (List.mem_map.2 ⟨z, hz, hzid.trans hid⟩)

/-- A call on the table. -/
theorem Tabled.next (h : Tabled scan past es) (hreg : Regular (c :: past))
    {rank : WorkItem V → Time × Time}
    (hs : PostgresWorkQueue.Served rank es c (PostgresWorkQueue.step scan c (es.map Entry.row)) es') :
    Tabled scan (c :: past) es' := by
  have hnovel : Novel (es.map fun e => e.item) c := by
    refine fun x hc => ⟨(h.novel hreg x hc).1, fun y hy => ?_⟩
    obtain ⟨e, he, rfl⟩ := List.mem_map.1 hy
    exact (h.novel hreg x hc).2 e he
  have hm := hs.serves.moved h.shelf hnovel
  refine ⟨?_, hm.shelf, ?_, fun e he => ?_⟩
  · show (PostgresWorkQueue.step scan c (PostgresWorkQueue.rows scan past)).2 = _
    rw [h.rows]
    exact hs.rows
  · rw [hs.stamps, h.stamps]
    simp only [kept]
    split
    · rename_i x hc
      have hserves := hs.serves
      have hkeys : (∃ p ∈ kept past, p.1.key = x.key) ↔
          ∃ y ∈ es.map (fun e => e.item), y.key = x.key := by
        constructor
        · rintro ⟨p, hp, hk⟩
          obtain ⟨e, he, hef, -⟩ := h.mem_entries hp
          exact ⟨e.item, List.mem_map_of_mem he, (WorkItem.of_fixed hef).2.1.trans hk⟩
        · rintro ⟨y, hy, hk⟩
          obtain ⟨e, he, rfl⟩ := List.mem_map.1 hy
          obtain ⟨p, hp, hpf, -⟩ := h.mem_kept he
          exact ⟨p, hp, (WorkItem.of_fixed hpf).2.1.trans hk⟩
      generalize (PostgresWorkQueue.step scan c (es.map Entry.row)).1 = r at hserves ⊢
      generalize es'.map (fun e => e.item) = l' at hserves
      cases hserves with
      | @present x' y hc' hy hk =>
        obtain rfl : x = x' := by rw [hc] at hc'; cases hc'; rfl
        rw [if_pos (hkeys.2 ⟨y, hy, hk⟩)]
        simp [PostgresWorkQueue.added]
      | @insert x' hc' hno =>
        obtain rfl : x = x' := by rw [hc] at hc'; cases hc'; rfl
        rw [if_neg fun hk => by obtain ⟨y, hy, hk⟩ := hkeys.1 hk; exact hno y hy hk]
        simp [PostgresWorkQueue.added]
      | claim hc' | idle hc' => rw [hc] at hc'; cases hc'
      | update ha | refuse ha => simp [TimedCall.assignment, hc] at ha
    · rename_i hno
      have hserves := hs.serves
      generalize (PostgresWorkQueue.step scan c (es.map Entry.row)).1 = r at hserves ⊢
      generalize es'.map (fun e => e.item) = l' at hserves
      have hadded : PostgresWorkQueue.added c r = [] := by
        cases hserves with
        | present hc | insert hc => exact absurd hc (hno _)
        | claim | idle => rfl
        | update ha =>
          unfold TimedCall.accepted
          split <;> rfl
        | refuse _ _ hr => rcases hr with rfl | ⟨-, rfl⟩ <;> rfl
      rw [hadded, List.append_nil]
  · rcases hm.ids e.item (List.mem_map_of_mem he) with ⟨y, hy, hid, -⟩ | hc
    · obtain ⟨e₀, he₀, rfl⟩ := List.mem_map.1 hy
      obtain ⟨z, hz, hzid⟩ := h.origin e₀ he₀
      exact ⟨z, (List.Sublist.filterMap _ (List.sublist_cons_self c past)).subset hz,
        hzid.trans hid⟩
    · exact ⟨e.item, by rw [enqueued_cons hc]; exact List.mem_cons_self, rfl⟩

/-- The table can be told from the calls alone. -/
theorem exists_tabled (hscan : ∀ rows, (scan rows).Perm rows) :
    ∀ {calls : List (TimedCall V)}, Regular calls → ∃ es, Tabled scan calls es
  | [], _ => ⟨[], rfl, ⟨List.nodup_nil, fun x hx => absurd hx List.not_mem_nil⟩, rfl,
      fun e he => absurd he List.not_mem_nil⟩
  | c :: past, h => by
    obtain ⟨es, hes⟩ := exists_tabled hscan h.tail
    obtain ⟨es', hs⟩ := PostgresWorkQueue.served (c := c) (fun _ => (0, 0)) hscan
      (by have := hes.shelf.ids; rwa [List.map_map] at this)
      (fun _ _ _ _ _ => .inr ⟨rfl, le_refl _⟩) (hes.novel h)
    exact ⟨es', hes.next h hs⟩

/-- The two queues after the same calls. -/
structure Alongside (scan : List (WorkRow V) → List (WorkRow V)) (calls : List (TimedCall V)) :
    Prop where
  memory : ((InMemoryWorkQueue.queue V).after calls : InMemoryWorkQueue V).Inv
  items : ∀ es, Tabled scan calls es →
    SameItems ((InMemoryWorkQueue.queue V).items ((InMemoryWorkQueue.queue V).after calls))
      (es.map fun e => e.item)

theorem row_inj {e e' : Entry V} (h : e.row = e'.row) : e = e' := by
  have hitem : e.row.item = e'.row.item := congrArg (fun r => r.item) h
  have hat : e.row.createdAt = e'.row.createdAt := congrArg (fun r => r.createdAt) h
  have hup : e.row.updatedAt = e'.row.updatedAt := congrArg (fun r => r.updatedAt) h
  have hval := congrArg WorkItem.validate hitem
  rw [show e.row.item = e.item.dump from rfl, show e'.row.item = e'.item.dump from rfl,
    WorkItem.validate_dump, WorkItem.validate_dump, Option.some.injEq] at hval
  cases e
  cases e'
  cases hval
  cases hat
  cases hup
  rfl

theorem Tabled.unique (h : Tabled scan calls es) (h' : Tabled scan calls es') : es = es' :=
  List.map_injective_iff.2 (fun _ _ => row_inj) (h.rows.symm.trans h'.rows)

/-- The order of the rows is the order of the items, if these come in the order of their
    creation. -/
theorem Tabled.rank (h : Tabled scan calls es) (ho : InCreationOrder calls) :
    ∀ e ∈ es, ∀ e' ∈ es, WorkItem.before (e.item.availableAt, e.createdAt)
      (e'.item.availableAt, e'.createdAt) →
      WorkItem.before (InMemoryWorkQueue.rank e.item) (InMemoryWorkQueue.rank e'.item) := by
  intro e he e' he' hb
  obtain ⟨p, hp, hpe, hpt⟩ := h.mem_kept he
  obtain ⟨q, hq, hqe, hqt⟩ := h.mem_kept he'
  have hlt := ho q hq p hp
  rw [hpt, hqt, (WorkItem.of_fixed hpe).2.2.1, (WorkItem.of_fixed hqe).2.2.1] at hlt
  rcases hb with hb | ⟨hb, hle⟩
  · exact .inl hb
  · exact .inr ⟨hb, not_lt.1 fun hc => absurd (hlt.2 hc) (not_lt.2 hle)⟩

/-- **One call keeps the queues alongside each other.** -/
theorem Alongside.next (hscan : ∀ rows, (scan rows).Perm rows) (h : Alongside scan past)
    (hreg : Regular (c :: past)) (hno : c.NoRenew)
    (hdist : ((enqueued past).map InMemoryWorkQueue.rank).Nodup) (ho : InCreationOrder past)
    (hid : ∀ x, c.call = .enqueue x → ∀ p ∈ kept past, p.1.key = x.key → p.1.id ≠ "") :
    QueueReply.Same ((InMemoryWorkQueue.queue V).reply past c)
      ((PostgresWorkQueue.queue scan).reply past c) ∧ Alongside scan (c :: past) := by
  obtain ⟨es, hes⟩ := exists_tabled hscan hreg.tail
  have hsame := h.items es hes
  obtain ⟨es', hs⟩ := PostgresWorkQueue.served (c := c) InMemoryWorkQueue.rank hscan
    (by have := hes.shelf.ids; rwa [List.map_map] at this) (hes.rank ho) (hes.novel hreg)
  have hpg : (PostgresWorkQueue.queue scan).reply past c =
      (PostgresWorkQueue.step scan c (es.map Entry.row)).1 := by
    rw [← hes.rows]; rfl
  obtain ⟨-, hmem⟩ := InMemoryWorkQueue.lawful.holds hreg.tail (V := V)
  obtain ⟨hinv, hans⟩ := h.memory.serves c fun x hc y hy => (hreg.novel hmem x hc).2 y hy
  -- the keys and ranks of the items are those of the items kept
  have hmap : ∀ {β : Type} (f : WorkItem V → β), (∀ x : WorkItem V, f x.fixed = f x) →
      (∀ x : WorkItem V, f x.stampless = f x) →
      ((InMemoryWorkQueue.queue V).items ((InMemoryWorkQueue.queue V).after past)).map f =
        (kept past).map fun p => f p.1 := by
    intro β f hf hf'
    rw [← hes.map_fixed hf]
    have := congrArg (List.map f) hsame
    simpa only [List.map_map, Function.comp_def, hf'] using this
  have hkeys := kept_keys past
  rw [← hmap WorkItem.key (fun _ => rfl) fun _ => rfl] at hkeys
  have hranks : ((kept past).map fun p => InMemoryWorkQueue.rank p.1).Nodup := by
    have := ((kept_sublist past).map InMemoryWorkQueue.rank).nodup
      (by rw [List.map_reverse, List.nodup_reverse]; exact hdist)
    rwa [List.map_map] at this
  rw [← hmap InMemoryWorkQueue.rank (fun _ => rfl) fun _ => rfl] at hranks
  have hempty : ∀ x, c.call = .enqueue x →
      ∀ y ∈ (InMemoryWorkQueue.queue V).items ((InMemoryWorkQueue.queue V).after past),
        y.key = x.key → y.id ≠ "" := by
    intro x hc y hy hk
    obtain ⟨z, hz, hyz⟩ := hsame.mem hy
    obtain ⟨e, he, rfl⟩ := List.mem_map.1 hz
    obtain ⟨p, hp, hpe, -⟩ := hes.mem_kept he
    have hfix := WorkItem.of_fixed hpe
    rw [hyz.parts.1, ← hfix.1]
    exact hid x hc p hp (hfix.2.1.trans (hyz.parts.2.1.symm.trans hk))
  obtain ⟨hr, hitems⟩ := hans.same hs.serves hsame hmem.shelf.ids hkeys hranks hno hempty
  refine ⟨hpg ▸ hr, hinv, fun es₂ hes₂ => ?_⟩
  rw [hes₂.unique (hes.next hreg hs)]
  exact hitems

/-- Under the key of an item with the empty id the queues differ. -/
theorem Alongside.differ (hscan : ∀ rows, (scan rows).Perm rows) (h : Alongside scan past)
    (hreg : Regular (c :: past)) {x : WorkItem V} (hc : c.call = .enqueue x)
    {p : WorkItem V × Time} (hp : p ∈ kept past) (hk : p.1.key = x.key) (hid : p.1.id = "") :
    ¬ QueueReply.Same ((InMemoryWorkQueue.queue V).reply past c)
      ((PostgresWorkQueue.queue scan).reply past c) := by
  obtain ⟨es, hes⟩ := exists_tabled hscan hreg.tail
  have hsame := h.items es hes
  obtain ⟨es', hs⟩ := PostgresWorkQueue.served (c := c) (fun _ => (0, 0)) hscan
    (by have := hes.shelf.ids; rwa [List.map_map] at this)
    (fun _ _ _ _ _ => .inr ⟨rfl, le_refl _⟩) (hes.novel hreg)
  have hpg : (PostgresWorkQueue.queue scan).reply past c =
      (PostgresWorkQueue.step scan c (es.map Entry.row)).1 := by
    rw [← hes.rows]; rfl
  obtain ⟨-, hmem⟩ := InMemoryWorkQueue.lawful.holds hreg.tail (V := V)
  obtain ⟨-, hans⟩ := h.memory.serves c fun x hc y hy => (hreg.novel hmem x hc).2 y hy
  have hserves := hs.serves
  rw [hpg]
  show ¬ QueueReply.Same (InMemoryWorkQueue.step c _).1 _
  generalize (PostgresWorkQueue.step scan c (es.map Entry.row)).1 = r' at hserves ⊢
  generalize es'.map (fun e => e.item) = m' at hserves
  generalize Dict.values (InMemoryWorkQueue.step c
    ((InMemoryWorkQueue.queue V).after past)).2.items = l' at hans
  generalize (InMemoryWorkQueue.step c ((InMemoryWorkQueue.queue V).after past)).1 = r at hans ⊢
  obtain ⟨e, he, hef, -⟩ := hes.mem_entries hp
  cases hans with
  | @present x' y hc' hy hd =>
    obtain rfl : x = x' := by rw [hc] at hc'; cases hc'; rfl
    obtain ⟨z, hz, hyz⟩ := hsame.mem hy
    obtain ⟨e', he', rfl⟩ := List.mem_map.1 hz
    obtain ⟨q, hq, hqe, -⟩ := hes.mem_kept he'
    have hfix := WorkItem.of_fixed hqe
    have hqk : q.1.key = p.1.key :=
      hfix.2.1.trans (hyz.parts.2.1.symm.trans (hd.1.trans hk.symm))
    obtain rfl := List.inj_on_of_nodup_map (kept_keys past) hq hp hqk
    exact absurd (hyz.parts.1.trans (hfix.1.symm.trans hid)) hd.2
  | @insert x' hc' _ =>
    cases hserves with
    | present _ _ _ => exact fun hcon => absurd hcon.2 (by decide)
    | @insert x'' hc'' hno =>
      obtain rfl : x = x'' := by rw [hc] at hc''; cases hc''; rfl
      exact absurd ((WorkItem.of_fixed hef).2.1.trans hk) (hno _ (List.mem_map_of_mem he))
    | claim hc'' | idle hc'' => rw [hc] at hc''; cases hc''
    | update ha | refuse ha => simp [TimedCall.assignment, hc] at ha
  | claim hc' | idle hc' => rw [hc] at hc'; cases hc'
  | update ha | refuse ha => simp [TimedCall.assignment, hc] at ha

theorem kept_subset_cons (c : TimedCall V) (past : List (TimedCall V)) :
    kept past ⊆ kept (c :: past) := by
  simp only [kept]
  split
  · split
    · exact List.Subset.refl _
    · exact List.subset_append_left _ _
  · exact List.Subset.refl _

theorem InCreationOrder.suffix (h : InCreationOrder calls) (hp : past <:+ calls) :
    InCreationOrder past := by
  obtain ⟨l, rfl⟩ := hp
  induction l with
  | nil => exact h
  | cons c l ih =>
    have hsub := kept_subset_cons c (l ++ past)
    exact ih fun p hp q hq => h p (hsub hp) q (hsub hq)

theorem NoEmptyId.suffix (h : NoEmptyId calls) (hp : past <:+ calls) : NoEmptyId past :=
  fun c l x hl => h c l x (hl.trans hp)

/-- As long as the items come as they should, the queues stay alongside each other. -/
theorem alongside (hscan : ∀ rows, (scan rows).Perm rows) :
    ∀ {calls : List (TimedCall V)}, Regular calls → (∀ c ∈ calls, c.NoRenew) →
      ((enqueued calls).map InMemoryWorkQueue.rank).Nodup → InCreationOrder calls →
      NoEmptyId calls → Alongside scan calls
  | [], _, _, _, _, _ => ⟨InMemoryWorkQueue.Inv.empty, fun es hes => by
      have hnil : es = [] := by simpa [PostgresWorkQueue.stamps, kept] using hes.stamps
      rw [hnil]; rfl⟩
  | c :: past, h, hno, hdist, ho, hid => by
    have hsub : (enqueued past).Sublist (enqueued (c :: past)) :=
      List.Sublist.filterMap _ (List.sublist_cons_self _ _)
    have hdist' := hdist.sublist (hsub.map InMemoryWorkQueue.rank)
    have hs := List.suffix_cons c past
    have hpast := alongside hscan h.tail (fun d hd => hno d (List.mem_cons_of_mem _ hd)) hdist'
      (ho.suffix hs) (hid.suffix hs)
    exact (hpast.next hscan h (hno c List.mem_cons_self) hdist' (ho.suffix hs)
      fun x hc => hid c past x List.suffix_rfl hc).2

theorem row_agrees (e : Entry V) : e.row.Agrees := by
  constructor <;> simp [Entry.row, WorkItem.dump, Dict.get]

theorem Tabled.ordered_iff (h : Tabled scan calls es) :
    WorkRow.Ordered (PostgresWorkQueue.rows scan calls) ↔ InCreationOrder calls := by
  have hget : ∀ e : Entry V, e.row.item.get "created_at" = some (.time e.item.createdAt) :=
    fun e => by simp [Entry.row, WorkItem.dump, Dict.get]
  rw [h.rows]
  constructor
  · intro ho p hp q hq
    obtain ⟨e, he, hep, het⟩ := h.mem_entries hp
    obtain ⟨e', he', hep', het'⟩ := h.mem_entries hq
    have := ho e.row (List.mem_map_of_mem he) e'.row (List.mem_map_of_mem he') _ _ (hget e)
      (hget e')
    rw [(WorkItem.of_fixed hep).2.2.1, (WorkItem.of_fixed hep').2.2.1] at this
    rw [← het, ← het']
    exact this
  · intro ho r hr s hs a b ha hb
    obtain ⟨e, he, rfl⟩ := List.mem_map.1 hr
    obtain ⟨e', he', rfl⟩ := List.mem_map.1 hs
    obtain ⟨p, hp, hpe, hpt⟩ := h.mem_kept he
    obtain ⟨q, hq, hqe, hqt⟩ := h.mem_kept he'
    rw [hget] at ha hb
    cases ha
    cases hb
    have := ho p hp q hq
    rw [hpt, hqt, (WorkItem.of_fixed hpe).2.2.1, (WorkItem.of_fixed hqe).2.2.1] at this
    exact this

end

/-- An item with the empty id, and another one under its key. -/
def emptyIdCalls : List (TimedCall Unit) :=
  [{ call := .enqueue { sampleThree with id := "j", createdAt := 1 }, now := 1 },
    { call := .enqueue { sampleThree with id := "" }, now := 0 }]

end TracciaRuntime
