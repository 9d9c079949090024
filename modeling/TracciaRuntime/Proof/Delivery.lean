/-
  Delivery to the subscribers of the PostgreSQL buses.

  A subscriber gets events from the durable history and from the queue of its process.

  * `Sane`: what the run bus yields is durable and in increasing order, always;
  * `Complete`: nothing is skipped as long as no event taken from the queue is ahead of a
    durable event that the cursor has not passed;
  * `run_events_delivered`: so a subscriber that keeps reading gets every event exactly
    once if and only if that never happens;
  * `conversation_events_delivered`: the conversation bus has neither cursor nor polling,
    and needs the hand-over of every event after the backlog.
-/
import TracciaRuntime.Events.Subscribe
import Mathlib.Data.List.Pairwise
import Mathlib.Data.List.Sort
import Mathlib.Data.List.GetD

namespace TracciaRuntime

variable {δ : Type} {kind : ReaderKind} {after maxsize : Nat}

/-! ## Eventually -/

/-- What lowers a measure again and again comes to an end. -/
theorem eventually_of_measure {q : Nat → Prop} (measure : Nat → Nat) (start : Nat)
    (hle : ∀ n, start ≤ n → ¬ q (n + 1) → measure (n + 1) ≤ measure n)
    (hlt : ∀ n, start ≤ n → ∃ m, n ≤ m ∧ (¬ q (m + 1) → measure (m + 1) < measure m)) :
    ∃ n, start ≤ n ∧ q n := by
  by_contra hnot
  have hno : ∀ n, start ≤ n → ¬ q n := fun n hn hq => hnot ⟨n, hn, hq⟩
  have hmono : ∀ n m, start ≤ n → n ≤ m → measure m ≤ measure n := by
    intro n m hn hm
    induction m, hm using Nat.le_induction with
    | base => exact le_rfl
    | succ m hm ih => exact (hle m (hn.trans hm) (hno _ (by omega))).trans ih
  have hdrop : ∀ k n, start ≤ n → measure n ≤ k → False := by
    intro k
    induction k with
    | zero =>
      intro n hn hk
      obtain ⟨m, hm, h⟩ := hlt n hn
      have := h (hno _ (by omega))
      have := hmono n m hn hm
      omega
    | succ k ih =>
      intro n hn hk
      obtain ⟨m, hm, h⟩ := hlt n hn
      have := h (hno _ (by omega))
      have := hmono n m hn hm
      exact ih (m + 1) (by omega) (by omega)
  exact hdrop _ start le_rfl le_rfl

/-! ## The steps -/

namespace Subscription

variable {σ σ' : Subscription δ} {e : StreamEvent δ}

theorem step_commit {here : Bool} (h : σ.step kind (.commit e here) = some σ') :
    (∀ r ∈ σ.rows, r.sequence < e.sequence) ∧ σ' = { σ with
      rows := σ.rows ++ [e]
      sending := if here then σ.sending ++ [e] else σ.sending } := by
  simp only [step] at h
  split at h
  · rename_i hlt; cases h; exact ⟨hlt, rfl⟩
  · cases h

theorem step_send {i : Nat} (h : σ.step kind (.send i) = some σ') :
    ∃ e, σ.sending[i]? = some e ∧
      σ' = { σ with sending := σ.sending.eraseIdx i, queue := σ.handOver e } := by
  simp only [step] at h
  split at h
  · rename_i e he; cases h; exact ⟨e, he, rfl⟩
  · cases h

theorem step_register (h : σ.step kind .register = some σ') :
    σ.phase = .outside ∧ σ' = { σ with phase := .registered } := by
  simp only [step] at h
  split at h
  · rename_i hp; cases h; exact ⟨hp, rfl⟩
  · cases h

theorem step_read (h : σ.step kind .read = some σ') :
    (σ.phase = .registered ∨ (kind = .run ∧ σ.phase = .reading [])) ∧
      σ' = { σ with phase := .reading (Stream.after σ.rows σ.cursor) } := by
  simp only [step, readRows] at h
  split at h
  · rename_i hp; cases h; exact ⟨Or.inl hp, rfl⟩
  · rename_i hp; cases h; exact ⟨Or.inr ⟨rfl, hp⟩, rfl⟩
  · cases h

theorem step_next (h : σ.step kind .next = some σ') :
    ∃ e rest, σ.phase = .reading (e :: rest) ∧ σ' = { σ with
      phase := .reading rest
      cursor := advance kind σ.cursor e.sequence
      yielded := σ.yielded ++ [e] } := by
  simp only [step, nextRow] at h
  split at h
  · rename_i e rest hp; cases h; exact ⟨e, rest, hp, rfl⟩
  · cases h

theorem step_take (h : σ.step kind .take = some σ') :
    ∃ e items, σ.phase = .reading [] ∧ σ.queue.items = e :: items ∧
      σ' = { σ with queue := { σ.queue with items } }.receive kind e := by
  simp only [step, takeEvent] at h
  split at h
  · rename_i e items hp hq; cases h; exact ⟨e, items, hp, hq, rfl⟩
  · cases h

@[simp] theorem receive_rows : (σ.receive kind e).rows = σ.rows := by
  unfold receive; split <;> [split <;> rfl; rfl]

@[simp] theorem receive_sending : (σ.receive kind e).sending = σ.sending := by
  unfold receive; split <;> [split <;> rfl; rfl]

@[simp] theorem receive_queue : (σ.receive kind e).queue = σ.queue := by
  unfold receive; split <;> [split <;> rfl; rfl]

@[simp] theorem receive_phase : (σ.receive kind e).phase = σ.phase := by
  unfold receive; split <;> [split <;> rfl; rfl]

theorem handOver_outside (h : σ.phase = .outside) : σ.handOver e = σ.queue := by
  simp [handOver, h]

theorem handOver_inside (h : σ.phase ≠ .outside) : σ.handOver e = σ.queue.offer e := by
  unfold handOver
  split
  · rename_i hp; exact absurd hp h
  · rfl

/-- What a queue holds after an offer. -/
theorem mem_handOver {x : StreamEvent δ} (hx : x ∈ (σ.handOver e).items) :
    x ∈ σ.queue.items ∨ x = e := by
  by_cases hp : σ.phase = .outside
  · rw [handOver_outside hp] at hx
    exact Or.inl hx
  · rw [handOver_inside hp, EventQueue.offer] at hx
    rcases List.mem_append.1 hx with hx | hx
    · split at hx
      · exact Or.inl (List.mem_of_mem_tail hx)
      · exact Or.inl hx
    · exact Or.inr (List.mem_singleton.1 hx)

theorem mem_after {rows : List (StreamEvent δ)} {cursor : Nat} {x : StreamEvent δ} :
    x ∈ Stream.after rows cursor ↔ x ∈ rows ∧ cursor < x.sequence := by
  simp [Stream.after]

/-- The history of rows in increasing order. -/
theorem after_eq {rows : List (StreamEvent δ)} (hrows : rows.Pairwise (·.sequence < ·.sequence))
    (cursor : Nat) : Stream.after rows cursor = rows.filter fun e => cursor < e.sequence := by
  unfold Stream.after
  refine List.mergeSort_of_pairwise ?_
  refine (hrows.filter _).imp ?_
  intro a b hab
  simpa using hab.le

end Subscription

/-! ## The table -/

/-- What holds on both buses: the rows are in increasing order, and events are durable before they
    go anywhere. -/
structure Durable (σ : Subscription δ) : Prop where
  sorted : σ.rows.Pairwise (·.sequence < ·.sequence)
  sending : ∀ e ∈ σ.sending, e ∈ σ.rows
  queue : ∀ e ∈ σ.queue.items, e ∈ σ.rows

theorem Durable.step {σ σ' : Subscription δ} {a : SubscriptionStep δ} (hd : Durable σ)
    (h : σ.step kind a = some σ') : Durable σ' := by
  obtain ⟨hsorted, hsending, hqueue⟩ := hd
  cases a with
  | commit e here =>
    obtain ⟨hlt, rfl⟩ := Subscription.step_commit h
    refine ⟨?_, ?_, fun x hx => List.mem_append_left _ (hqueue x hx)⟩
    · rw [List.pairwise_append]
      exact ⟨hsorted, List.pairwise_singleton _ _, fun r hr x hx => by
        rw [List.mem_singleton.1 hx]; exact hlt r hr⟩
    · intro x hx
      dsimp only at hx
      split at hx
      · rcases List.mem_append.1 hx with hx | hx
        · exact List.mem_append_left _ (hsending x hx)
        · exact List.mem_append_right _ hx
      · exact List.mem_append_left _ (hsending x hx)
  | send i =>
    obtain ⟨e, he, rfl⟩ := Subscription.step_send h
    refine ⟨hsorted, fun x hx => hsending x (List.mem_of_mem_eraseIdx hx), fun x hx => ?_⟩
    rcases Subscription.mem_handOver hx with hx | rfl
    · exact hqueue x hx
    · exact hsending x (List.mem_of_getElem? he)
  | register =>
    obtain ⟨-, rfl⟩ := Subscription.step_register h
    exact ⟨hsorted, hsending, hqueue⟩
  | read =>
    obtain ⟨-, rfl⟩ := Subscription.step_read h
    exact ⟨hsorted, hsending, hqueue⟩
  | next =>
    obtain ⟨e, rest, -, rfl⟩ := Subscription.step_next h
    exact ⟨hsorted, hsending, hqueue⟩
  | take =>
    obtain ⟨e, items, -, hq, rfl⟩ := Subscription.step_take h
    refine ⟨by simpa using hsorted, by simpa using hsending, fun x hx => ?_⟩
    rw [Subscription.receive_queue] at hx
    simpa using hqueue x (by rw [hq]; exact List.mem_cons_of_mem _ hx)
  | idle => cases h; exact ⟨hsorted, hsending, hqueue⟩

/-- Rows with one number are one row. -/
theorem Durable.row_eq {σ : Subscription δ} (hd : Durable σ) {r r' : StreamEvent δ}
    (hr : r ∈ σ.rows) (hr' : r' ∈ σ.rows) (h : r.sequence = r'.sequence) : r = r' := by
  have hnodup : (σ.rows.map (·.sequence)).Nodup :=
    List.pairwise_map.2 (hd.sorted.imp fun hab => hab.ne)
  exact List.inj_on_of_nodup_map hnodup hr hr' h

/-- What a step does to the rows. -/
theorem Subscription.step_rows {σ σ' : Subscription δ} {a : SubscriptionStep δ}
    (h : σ.step kind a = some σ') : σ.rows <+: σ'.rows := by
  cases a with
  | commit e here =>
    obtain ⟨-, rfl⟩ := step_commit h
    exact List.prefix_append _ _
  | send i =>
    obtain ⟨e, -, rfl⟩ := step_send h
    exact List.prefix_rfl
  | register =>
    obtain ⟨-, rfl⟩ := step_register h
    exact List.prefix_rfl
  | read =>
    obtain ⟨-, rfl⟩ := step_read h
    exact List.prefix_rfl
  | next =>
    obtain ⟨e, rest, -, rfl⟩ := step_next h
    exact List.prefix_rfl
  | take =>
    obtain ⟨e, items, -, -, rfl⟩ := step_take h
    rw [receive_rows]
  | idle =>
    cases h
    exact List.prefix_rfl

/-- What is yielded stays yielded. -/
theorem Subscription.step_yielded {σ σ' : Subscription δ} {a : SubscriptionStep δ}
    (h : σ.step kind a = some σ') : σ.yielded <+: σ'.yielded := by
  cases a with
  | commit e here =>
    obtain ⟨-, rfl⟩ := step_commit h
    exact List.prefix_rfl
  | send i =>
    obtain ⟨e, -, rfl⟩ := step_send h
    exact List.prefix_rfl
  | register =>
    obtain ⟨-, rfl⟩ := step_register h
    exact List.prefix_rfl
  | read =>
    obtain ⟨-, rfl⟩ := step_read h
    exact List.prefix_rfl
  | next =>
    obtain ⟨e, rest, -, rfl⟩ := step_next h
    exact List.prefix_append _ _
  | take =>
    obtain ⟨e, items, -, -, rfl⟩ := step_take h
    cases kind with
    | run =>
      unfold receive
      dsimp only
      split
      · exact List.prefix_append _ _
      · exact List.prefix_rfl
    | conversation => exact List.prefix_append _ _
  | idle =>
    cases h
    exact List.prefix_rfl

/-- The subscriber yields the rows it has read before it does anything else. -/
theorem Subscription.step_reading {σ σ' : Subscription δ} {a : SubscriptionStep δ}
    {x : StreamEvent δ} {rest : List (StreamEvent δ)} (hp : σ.phase = .reading (x :: rest))
    (h : σ.step kind a = some σ') :
    (a.reads = false ∧ σ'.phase = .reading (x :: rest)) ∨
      (a.reads = true ∧ σ'.phase = .reading rest ∧ x ∈ σ'.yielded) := by
  cases a with
  | commit e here =>
    obtain ⟨-, rfl⟩ := step_commit h
    exact Or.inl ⟨rfl, hp⟩
  | send i =>
    obtain ⟨e, -, rfl⟩ := step_send h
    exact Or.inl ⟨rfl, hp⟩
  | register =>
    obtain ⟨hp', -⟩ := step_register h
    cases hp.symm.trans hp'
  | read =>
    obtain ⟨hp' | ⟨-, hp'⟩, -⟩ := step_read h
    · cases hp.symm.trans hp'
    · cases hp.symm.trans hp'
  | next =>
    obtain ⟨e, rest', hp', rfl⟩ := step_next h
    cases hp.symm.trans hp'
    exact Or.inr ⟨rfl, rfl, List.mem_append_right _ (List.mem_singleton_self _)⟩
  | take =>
    obtain ⟨e, items, hp', -⟩ := step_take h
    cases hp.symm.trans hp'
  | idle =>
    cases h
    exact Or.inl ⟨rfl, hp⟩

namespace Watch

variable (w : Watch kind after maxsize δ)

theorem durable (n : Nat) : Durable (w.state n) := by
  induction n with
  | zero =>
    rw [w.start]
    exact ⟨List.Pairwise.nil, by simp [Subscription.initial], by simp [Subscription.initial]⟩
  | succ n ih => exact ih.step (w.step n)

/-- Rows stay. -/
theorem rows_grow {n m : Nat} (h : n ≤ m) : (w.state n).rows <+: (w.state m).rows := by
  induction m, h using Nat.le_induction with
  | base => exact List.prefix_rfl
  | succ m hm ih => exact ih.trans (Subscription.step_rows (w.step m))

theorem yielded_grow {n m : Nat} (h : n ≤ m) :
    (w.state n).yielded <+: (w.state m).yielded := by
  induction m, h using Nat.le_induction with
  | base => exact List.prefix_rfl
  | succ m hm ih => exact ih.trans (Subscription.step_yielded (w.step m))

end Watch

/-! ## What is claimed -/

namespace Watch

variable (w : Watch kind after maxsize δ)

/-- The subscriber keeps reading: again and again it makes a step, or there is none to make. -/
def KeepsReading : Prop :=
  ∀ n, ∃ m, n ≤ m ∧ ((w.act m).reads = true ∨
    ∀ a : SubscriptionStep δ, a.reads = true → (w.state m).step kind a = none)

/-- Every durable event after `after` is yielded exactly once, in increasing order. -/
structure ExactlyOnce : Prop where
  ordered : ∀ n, (w.state n).yielded.Pairwise (·.sequence < ·.sequence)
  durable : ∀ n, ∀ e ∈ (w.state n).yielded, e ∈ (w.state n).rows ∧ after < e.sequence
  complete : ∀ n, ∀ e ∈ (w.state n).rows, after < e.sequence → ∃ m, e ∈ (w.state m).yielded

end Watch

/-! ## The run bus -/

/-- What holds on the run bus in every run: the subscriber yields durable events in increasing
    order, and the rows it has read are next. -/
structure Sane (after : Nat) (σ : Subscription δ) : Prop where
  sorted : σ.yielded.Pairwise (·.sequence < ·.sequence)
  yielded : ∀ e ∈ σ.yielded, e ∈ σ.rows ∧ after < e.sequence ∧ e.sequence ≤ σ.cursor
  cursor : σ.cursor = after ∨ after < σ.cursor ∧ ∃ r ∈ σ.rows, σ.cursor = r.sequence
  rest : ∀ rest, σ.phase = .reading rest → rest.Pairwise (·.sequence < ·.sequence) ∧
    ∀ e ∈ rest, e ∈ σ.rows ∧ σ.cursor < e.sequence
  closed : ∀ rest, σ.phase = .reading rest → ∀ r ∈ σ.rows, σ.cursor < r.sequence →
    ∀ x ∈ rest, r.sequence ≤ x.sequence → r ∈ rest

theorem Sane.after_le {σ : Subscription δ} (hs : Sane after σ) : after ≤ σ.cursor := by
  rcases hs.cursor with h | ⟨h, -⟩ <;> omega

/-- An event beyond the cursor is yielded. -/
theorem Sane.yield {σ : Subscription δ} (hs : Sane after σ) {e : StreamEvent δ} (he : e ∈ σ.rows)
    (hlt : σ.cursor < e.sequence) :
    (σ.yielded ++ [e]).Pairwise (·.sequence < ·.sequence) ∧
      ∀ x ∈ σ.yielded ++ [e], x ∈ σ.rows ∧ after < x.sequence ∧ x.sequence ≤ e.sequence := by
  have hafter := hs.after_le
  constructor
  · rw [List.pairwise_append]
    refine ⟨hs.sorted, List.pairwise_singleton _ _, fun x hx y hy => ?_⟩
    rw [List.mem_singleton.1 hy]
    have := (hs.yielded x hx).2.2
    omega
  · intro x hx
    rcases List.mem_append.1 hx with hx | hx
    · obtain ⟨hrow, hlow, hhigh⟩ := hs.yielded x hx
      exact ⟨hrow, hlow, by omega⟩
    · rw [List.mem_singleton.1 hx]
      exact ⟨he, by omega, le_rfl⟩

theorem Sane.step {σ σ' : Subscription δ} {a : SubscriptionStep δ} (hd : Durable σ)
    (hs : Sane after σ) (h : σ.step .run a = some σ') : Sane after σ' := by
  cases a with
  | commit e here =>
    obtain ⟨hlt, rfl⟩ := Subscription.step_commit h
    refine ⟨hs.sorted, ?_, ?_, ?_, ?_⟩
    · intro x hx
      obtain ⟨hrow, h⟩ := hs.yielded x hx
      exact ⟨List.mem_append_left _ hrow, h⟩
    · rcases hs.cursor with h | ⟨h, r, hr, hc⟩
      · exact Or.inl h
      · exact Or.inr ⟨h, r, List.mem_append_left _ hr, hc⟩
    · intro rest hrest
      obtain ⟨hsorted, hrows⟩ := hs.rest rest hrest
      exact ⟨hsorted, fun x hx => ⟨List.mem_append_left _ (hrows x hx).1, (hrows x hx).2⟩⟩
    · intro rest hrest r hr hc x hx hle
      rcases List.mem_append.1 hr with hr | hr
      · exact hs.closed rest hrest r hr hc x hx hle
      · -- the new row comes after all that was read
        have := hlt x ((hs.rest rest hrest).2 x hx).1
        rw [List.mem_singleton.1 hr] at hle
        omega
  | send i =>
    obtain ⟨e, he, rfl⟩ := Subscription.step_send h
    exact ⟨hs.sorted, hs.yielded, hs.cursor, hs.rest, hs.closed⟩
  | register =>
    obtain ⟨-, rfl⟩ := Subscription.step_register h
    refine ⟨hs.sorted, hs.yielded, hs.cursor, ?_, ?_⟩
    · intro rest hrest; cases hrest
    · intro rest hrest; cases hrest
  | read =>
    obtain ⟨-, rfl⟩ := Subscription.step_read h
    refine ⟨hs.sorted, hs.yielded, hs.cursor, ?_, ?_⟩
    · intro rest hrest
      cases hrest
      refine ⟨?_, fun x hx => Subscription.mem_after.1 hx⟩
      rw [Subscription.after_eq hd.sorted]
      exact hd.sorted.filter _
    · intro rest hrest r hr hc x hx hle
      cases hrest
      exact Subscription.mem_after.2 ⟨hr, hc⟩
  | next =>
    obtain ⟨e, rest, hp, rfl⟩ := Subscription.step_next h
    obtain ⟨hsorted, hrows⟩ := hs.rest _ hp
    obtain ⟨hrow, hlt⟩ := hrows e List.mem_cons_self
    obtain ⟨hpair, hall⟩ := hs.yield hrow hlt
    have hcursor : Subscription.advance .run σ.cursor e.sequence = e.sequence := max_eq_right hlt.le
    have hafter := hs.after_le
    rw [hcursor]
    refine ⟨hpair, hall, Or.inr ⟨by dsimp only; omega, e, hrow, rfl⟩, ?_, ?_⟩
    · intro rest' hrest
      cases hrest
      refine ⟨(List.pairwise_cons.1 hsorted).2, fun x hx => ⟨(hrows x (by simp [hx])).1, ?_⟩⟩
      exact (List.pairwise_cons.1 hsorted).1 x hx
    · intro rest' hrest r hr hc x hx hle
      cases hrest
      dsimp only at hc
      have := hs.closed _ hp r hr (by omega) x (by simp [hx]) hle
      rcases List.mem_cons.1 this with rfl | h
      · omega
      · exact h
  | take =>
    obtain ⟨e, items, hp, hq, rfl⟩ := Subscription.step_take h
    have hrow : e ∈ σ.rows := hd.queue e (by rw [hq]; exact List.mem_cons_self)
    unfold Subscription.receive
    dsimp only
    split
    · rename_i hlt
      obtain ⟨hpair, hall⟩ := hs.yield hrow hlt
      have hafter := hs.after_le
      refine ⟨hpair, hall, Or.inr ⟨by dsimp only [Subscription.yield]; omega, e, hrow, rfl⟩, ?_, ?_⟩
      · intro rest hrest
        cases hp.symm.trans hrest
        exact ⟨List.Pairwise.nil, by simp⟩
      · intro rest hrest
        cases hp.symm.trans hrest
        simp
    · exact ⟨hs.sorted, hs.yielded, hs.cursor, hs.rest, hs.closed⟩
  | idle => cases h; exact hs

/-- The cursor has skipped nothing. -/
def Complete (after : Nat) (σ : Subscription δ) : Prop :=
  ∀ r ∈ σ.rows, after < r.sequence → r.sequence ≤ σ.cursor → r ∈ σ.yielded

/-- The next event of the queue, if it is beyond the cursor, is not ahead of another one. -/
def NoneAhead (σ : Subscription δ) : Prop :=
  ∀ e, σ.queue.items.head? = some e → σ.cursor < e.sequence →
    ∀ r ∈ σ.rows, r.sequence < e.sequence → r.sequence ≤ σ.cursor

theorem Complete.step {σ σ' : Subscription δ} {a : SubscriptionStep δ} (hd : Durable σ)
    (hs : Sane after σ) (hc : Complete after σ) (ha : a = .take → NoneAhead σ)
    (h : σ.step .run a = some σ') : Complete after σ' := by
  cases a with
  | commit e here =>
    obtain ⟨hlt, rfl⟩ := Subscription.step_commit h
    intro r hr hafter hle
    rcases List.mem_append.1 hr with hr | hr
    · exact hc r hr hafter hle
    · -- the cursor is at `after` or at an older row
      rw [List.mem_singleton.1 hr] at hafter hle
      dsimp only at hle
      rcases hs.cursor with h | ⟨-, x, hx, hcursor⟩
      · omega
      · have := hlt x hx
        omega
  | send i =>
    obtain ⟨e, he, rfl⟩ := Subscription.step_send h
    exact hc
  | register =>
    obtain ⟨-, rfl⟩ := Subscription.step_register h
    exact hc
  | read =>
    obtain ⟨-, rfl⟩ := Subscription.step_read h
    exact hc
  | next =>
    obtain ⟨e, rest, hp, rfl⟩ := Subscription.step_next h
    obtain ⟨hsorted, hrows⟩ := hs.rest _ hp
    have hlt := (hrows e List.mem_cons_self).2
    have hcursor : Subscription.advance .run σ.cursor e.sequence = e.sequence := max_eq_right hlt.le
    rw [hcursor]
    intro r hr hafter hle
    by_cases hold : r.sequence ≤ σ.cursor
    · exact List.mem_append_left _ (hc r hr hafter hold)
    · have hmem := hs.closed _ hp r hr (by omega) e List.mem_cons_self hle
      rcases List.mem_cons.1 hmem with rfl | hmem
      · exact List.mem_append_right _ (List.mem_singleton_self _)
      · have := (List.pairwise_cons.1 hsorted).1 r hmem
        dsimp only at hle
        omega
  | take =>
    obtain ⟨e, items, hp, hq, rfl⟩ := Subscription.step_take h
    have hahead := ha rfl e (by rw [hq]; rfl)
    unfold Subscription.receive
    dsimp only
    split
    · rename_i hlt
      intro r hr hafter hle
      by_cases hold : r.sequence ≤ σ.cursor
      · exact List.mem_append_left _ (hc r hr hafter hold)
      · dsimp only [Subscription.yield] at hr hle
        have heq : r.sequence = e.sequence := by
          by_contra hne
          exact hold (hahead hlt r hr (by omega))
        have hrow : e ∈ σ.rows := hd.queue e (by rw [hq]; exact List.mem_cons_self)
        obtain rfl := hd.row_eq hr hrow heq
        exact List.mem_append_right _ (List.mem_singleton_self _)
    · exact hc
  | idle => cases h; exact hc

namespace Watch

variable (w : Watch .run after maxsize δ)

theorem sane (n : Nat) : Sane after (w.state n) := by
  induction n with
  | zero =>
    rw [w.start]
    refine ⟨List.Pairwise.nil, by simp [Subscription.initial], Or.inl rfl, ?_, ?_⟩
    · intro rest hrest; cases hrest
    · intro rest hrest; cases hrest
  | succ n ih => exact ih.step (w.durable n) (w.step n)

/-- No event taken from the queue is ahead of a durable one. -/
def InTurn : Prop := ∀ n, w.act n = .take → NoneAhead (w.state n)

theorem complete (hw : w.InTurn) (n : Nat) : Complete after (w.state n) := by
  induction n with
  | zero =>
    rw [w.start]
    intro r hr
    cases hr
  | succ n ih => exact ih.step (w.durable n) (w.sane n) (hw n) (w.step n)

end Watch

/-! ## Every event arrives -/

namespace Subscription

/-- What the subscriber has still to do before it gets to the event `e`, if it does not read the
    history again. -/
def ahead (e : StreamEvent δ) (σ : Subscription δ) : Nat :=
  let older (x : StreamEvent δ) : Bool := x.sequence < e.sequence
  (match σ.phase with
    | .outside => 2
    | .registered => 1
    | .reading rest => rest.length) + σ.queue.items.countP older + σ.sending.countP older

variable {σ σ' : Subscription δ} {e x : StreamEvent δ}

theorem countP_handOver (p : StreamEvent δ → Bool) :
    (σ.handOver x).items.countP p ≤ σ.queue.items.countP p + [x].countP p := by
  by_cases hp : σ.phase = .outside
  · rw [handOver_outside hp]; omega
  · rw [handOver_inside hp, EventQueue.offer, List.countP_append]
    split
    · have := (List.tail_sublist σ.queue.items).countP_le (p := p)
      omega
    · exact le_rfl

theorem countP_eraseIdx (p : StreamEvent δ → Bool) {l : List (StreamEvent δ)} {i : Nat}
    (h : l[i]? = some x) : (l.eraseIdx i).countP p + [x].countP p = l.countP p := by
  obtain ⟨hi, rfl⟩ := List.getElem?_eq_some_iff.1 h
  rw [← (List.getElem_cons_eraseIdx_perm hi).countP_eq p]
  simp [List.countP_cons]

/-- Other steps than `history` do not move away from the event, and the steps of the subscriber go
    towards it, unless it has arrived. -/
theorem ahead_step {a : SubscriptionStep δ} (hrow : e ∈ σ.rows) (hcursor : σ.cursor < e.sequence)
    (hc : Complete after σ') (hafter : after < e.sequence) (hread : a ≠ .read)
    (h : σ.step .run a = some σ') (hnot : e ∉ σ'.yielded) :
    σ'.ahead e ≤ σ.ahead e ∧ (a.reads = true → σ'.ahead e < σ.ahead e) := by
  cases a with
  | commit x here =>
    obtain ⟨hlt, rfl⟩ := step_commit h
    have hx : ¬ x.sequence < e.sequence := by
      have := hlt e hrow
      omega
    refine ⟨?_, fun hr => by cases hr⟩
    cases here <;> simp [ahead, hx]
  | send i =>
    obtain ⟨x, hx, rfl⟩ := step_send h
    refine ⟨?_, fun hr => by cases hr⟩
    have h₁ := countP_handOver (σ := σ) (x := x) fun x => x.sequence < e.sequence
    have h₂ := countP_eraseIdx (fun x => x.sequence < e.sequence) hx
    simp only [ahead]
    omega
  | register =>
    obtain ⟨hp, rfl⟩ := step_register h
    simp only [ahead, hp]
    omega
  | read => exact absurd rfl hread
  | next =>
    obtain ⟨x, rest, hp, rfl⟩ := step_next h
    simp only [ahead, hp, List.length_cons]
    omega
  | take =>
    obtain ⟨x, items, hp, hq, rfl⟩ := step_take h
    have hx : x.sequence < e.sequence := by
      by_contra hge
      have hcur : ({ σ with queue := { σ.queue with items } }.receive .run x).cursor =
          x.sequence := by
        unfold receive
        dsimp only
        rw [if_pos (by omega)]
        rfl
      exact hnot (hc e (by simpa using hrow) hafter (by rw [hcur]; omega))
    simp only [ahead, receive_phase, receive_queue, receive_sending, hp, hq, List.countP_cons, hx,
      decide_true, if_true]
    omega
  | idle =>
    cases h
    exact ⟨le_rfl, fun hr => by cases hr⟩

end Subscription

namespace Watch

variable (w : Watch .run after maxsize δ)

/-- There is always a step to make for the subscriber of the run bus. -/
theorem often (hk : w.KeepsReading) (n : Nat) : ∃ m, n ≤ m ∧ (w.act m).reads = true := by
  obtain ⟨m, hm, h | hblocked⟩ := hk n
  · exact ⟨m, hm, h⟩
  · exfalso
    cases hp : (w.state m).phase with
    | outside =>
      have := hblocked .register rfl
      simp [Subscription.step, hp] at this
    | registered =>
      have := hblocked .read rfl
      simp [Subscription.step, Subscription.readRows, hp] at this
    | reading rest =>
      cases rest with
      | nil =>
        have := hblocked .read rfl
        simp [Subscription.step, Subscription.readRows, hp] at this
      | cons x rest =>
        have := hblocked .next rfl
        simp [Subscription.step, Subscription.nextRow, hp] at this

/-- An event that was read from the history arrives. -/
theorem arrives_of_read (hk : w.KeepsReading) {n : Nat} {e : StreamEvent δ}
    {rest : List (StreamEvent δ)} (hp : (w.state n).phase = .reading rest) (he : e ∈ rest) :
    ∃ m, e ∈ (w.state m).yielded := by
  induction rest generalizing n with
  | nil => cases he
  | cons x rest ih =>
    -- the first step of the subscriber after `n` yields `x`
    obtain ⟨k, hk', hr⟩ := w.often hk n
    have hstay : ∀ m, n ≤ m → (∃ j, n ≤ j ∧ (w.state j).phase = .reading rest ∧
        x ∈ (w.state j).yielded) ∨ (w.state m).phase = .reading (x :: rest) := by
      intro m hm
      induction m, hm using Nat.le_induction with
      | base => exact Or.inr hp
      | succ m hm ihm =>
        rcases ihm with h | h
        · exact Or.inl h
        · rcases Subscription.step_reading h (w.step m) with ⟨-, h⟩ | ⟨-, h, hx⟩
          · exact Or.inr h
          · exact Or.inl ⟨m + 1, by omega, h, hx⟩
    have hnext : ∃ j, n ≤ j ∧ (w.state j).phase = .reading rest ∧ x ∈ (w.state j).yielded := by
      rcases hstay k hk' with h | h
      · exact h
      · rcases Subscription.step_reading h (w.step k) with ⟨hr', -⟩ | ⟨-, h, hx⟩
        · rw [hr] at hr'; cases hr'
        · exact ⟨k + 1, by omega, h, hx⟩
    obtain ⟨j, -, hp, hx⟩ := hnext
    rcases List.mem_cons.1 he with rfl | he
    · exact ⟨j, hx⟩
    · exact ih hp he

/-- **Every durable event arrives.** -/
theorem arrives (hk : w.KeepsReading) (hw : w.InTurn) {n : Nat} {e : StreamEvent δ}
    (he : e ∈ (w.state n).rows) (hafter : after < e.sequence) : ∃ m, e ∈ (w.state m).yielded := by
  have hrow : ∀ m, n ≤ m → e ∈ (w.state m).rows := fun m hm => (w.rows_grow hm).subset he
  have hcursor : ∀ m, n ≤ m → e ∉ (w.state m).yielded → (w.state m).cursor < e.sequence := by
    intro m hm hnot
    by_contra hle
    exact hnot (w.complete hw m e (hrow m hm) hafter (by omega))
  by_contra hnever
  rw [not_exists] at hnever
  by_cases hread : ∃ m, n ≤ m ∧ w.act m = .read
  · obtain ⟨m, hm, ha⟩ := hread
    have hstep := w.step m
    rw [ha] at hstep
    obtain ⟨-, hs⟩ := Subscription.step_read hstep
    obtain ⟨k, hk'⟩ := w.arrives_of_read hk (n := m + 1) (e := e) (by rw [hs])
      (Subscription.mem_after.2 ⟨hrow m hm, hcursor m hm (hnever m)⟩)
    exact hnever k hk'
  · have hstep : ∀ m, n ≤ m → (w.state (m + 1)).ahead e ≤ (w.state m).ahead e ∧
        ((w.act m).reads = true → (w.state (m + 1)).ahead e < (w.state m).ahead e) := by
      intro m hm
      exact Subscription.ahead_step (hrow m hm) (hcursor m hm (hnever m)) (w.complete hw (m + 1))
        hafter (fun ha => hread ⟨m, hm, ha⟩) (w.step m) (hnever (m + 1))
    obtain ⟨m, -, hm⟩ := eventually_of_measure (q := fun m => e ∈ (w.state m).yielded)
      (fun m => (w.state m).ahead e) n (fun m hm _ => (hstep m hm).1) fun m hm => by
        obtain ⟨k, hk', hr⟩ := w.often hk m
        exact ⟨k, hk', fun _ => (hstep k (hm.trans hk')).2 hr⟩
    exact hnever m hm

/-- An event that is overtaken never arrives. -/
theorem inTurn (hw : w.ExactlyOnce) : w.InTurn := by
  intro n ha e hhead hlt r hr hre
  by_contra hcur
  have hsane := w.sane n
  have hafter := hsane.after_le
  obtain ⟨m, hm⟩ := hw.complete n r hr (by omega)
  have hnot : r ∉ (w.state n).yielded := fun h => hcur (hsane.yielded r h).2.2
  have hstep := w.step n
  rw [ha] at hstep
  obtain ⟨x, items, -, hq, hs⟩ := Subscription.step_take hstep
  obtain rfl : x = e := by rw [hq] at hhead; exact Option.some.inj hhead
  have hyielded : (w.state (n + 1)).yielded = (w.state n).yielded ++ [x] := by
    rw [hs]
    simp only [Subscription.receive, hlt, if_true]
    rfl
  rcases Nat.lt_or_ge n m with hnm | hmn
  · obtain ⟨more, hmore⟩ := w.yielded_grow (show n + 1 ≤ m by omega)
    rw [hyielded, List.append_assoc] at hmore
    have hmem : r ∈ [x] ++ more := by
      rw [← hmore] at hm
      rcases List.mem_append.1 hm with h | h
      · exact absurd h hnot
      · exact h
    have hpair := hw.ordered m
    rw [← hmore, List.pairwise_append] at hpair
    rcases List.mem_append.1 hmem with h | h
    · rw [List.mem_singleton.1 h] at hre; omega
    · have := (List.pairwise_cons.1 hpair.2.1).1 r h
      omega
  · exact hnot ((w.yielded_grow hmn).subset hm)

/-- **A subscriber that keeps reading** gets every event exactly once if and only if the events it
    takes from its queue are in turn. -/
theorem exactlyOnce_iff (hk : w.KeepsReading) : w.ExactlyOnce ↔ w.InTurn := by
  refine ⟨w.inTurn, fun hw => ⟨fun n => (w.sane n).sorted, fun n e he => ?_, ?_⟩⟩
  · obtain ⟨hrow, hafter, -⟩ := (w.sane n).yielded e he
    exact ⟨hrow, hafter⟩
  · intro n e he hafter
    exact w.arrives hk hw he hafter

end Watch

/-! ## Hand-over in turn -/

/-- The publication hands over its event while the queue has room, and after every older event that
    the subscriber has not passed or read. -/
def HandsInTurn (σ : Subscription δ) (i : Nat) : Prop :=
  ∀ e rest, σ.sending[i]? = some e → σ.phase = .reading rest → σ.queue.full = false ∧
    ∀ r ∈ σ.rows, σ.cursor < r.sequence → r.sequence < e.sequence → r ∈ rest ∨ r ∈ σ.queue.items

/-- Events that wait in the queue have all older ones before them. -/
def QueuedInTurn (σ : Subscription δ) : Prop :=
  ∀ rest, σ.phase = .reading rest → ∀ front x back, σ.queue.items = front ++ x :: back →
    ∀ r ∈ σ.rows, σ.cursor < r.sequence → r.sequence < x.sequence → r ∈ rest ∨ r ∈ front

theorem QueuedInTurn.step {σ σ' : Subscription δ} {a : SubscriptionStep δ} (hd : Durable σ)
    (hs : Sane after σ) (hq : QueuedInTurn σ) (ha : ∀ i, a = .send i → HandsInTurn σ i)
    (h : σ.step .run a = some σ') : QueuedInTurn σ' := by
  cases a with
  | commit e here =>
    obtain ⟨hlt, rfl⟩ := Subscription.step_commit h
    intro rest hrest front x back hitems r hr hc hx
    rcases List.mem_append.1 hr with hr | hr
    · exact hq rest hrest front x back hitems r hr hc hx
    · have := hlt x (hd.queue x (by rw [hitems]; simp))
      rw [List.mem_singleton.1 hr] at hx
      omega
  | send i =>
    obtain ⟨e, he, rfl⟩ := Subscription.step_send h
    intro rest hrest front x back hitems r hr hc hx
    obtain ⟨hroom, hold⟩ := ha i rfl e rest he hrest
    dsimp only at hrest hitems hr hc
    rw [Subscription.handOver_inside (by rw [hrest]; simp), EventQueue.offer, hroom] at hitems
    simp only [Bool.false_eq_true, if_false] at hitems
    rcases List.eq_nil_or_concat back with rfl | ⟨back, y, rfl⟩
    · obtain ⟨hfront, hxe⟩ := List.append_inj' hitems rfl
      cases hxe
      rw [← hfront]
      exact hold r hr hc hx
    · rw [List.concat_eq_append, ← List.cons_append, ← List.append_assoc] at hitems
      obtain ⟨hfront, -⟩ := List.append_inj' hitems rfl
      exact hq rest hrest front x back hfront r hr hc hx
  | register =>
    obtain ⟨-, rfl⟩ := Subscription.step_register h
    intro rest hrest
    cases hrest
  | read =>
    obtain ⟨-, rfl⟩ := Subscription.step_read h
    intro rest hrest front x back hitems r hr hc hx
    cases hrest
    exact Or.inl (Subscription.mem_after.2 ⟨hr, hc⟩)
  | next =>
    obtain ⟨e, rest, hp, rfl⟩ := Subscription.step_next h
    have hlt := ((hs.rest _ hp).2 e List.mem_cons_self).2
    have hcursor : Subscription.advance .run σ.cursor e.sequence = e.sequence := max_eq_right hlt.le
    rw [hcursor]
    intro rest' hrest front x back hitems r hr hc hx
    cases hrest
    dsimp only at hc
    rcases hq _ hp front x back hitems r hr (by omega) hx with h | h
    · rcases List.mem_cons.1 h with rfl | h
      · omega
      · exact Or.inl h
    · exact Or.inr h
  | take =>
    obtain ⟨e, items, hp, hqueue, rfl⟩ := Subscription.step_take h
    intro rest hrest front x back hitems r hr hc hx
    rw [Subscription.receive_phase] at hrest
    rw [Subscription.receive_queue] at hitems
    rw [Subscription.receive_rows] at hr
    dsimp only at hrest hitems hr
    have hle : σ.cursor ≤ ({ σ with queue := { σ.queue with items } }.receive .run e).cursor ∧
        e.sequence ≤ ({ σ with queue := { σ.queue with items } }.receive .run e).cursor := by
      unfold Subscription.receive
      dsimp only
      split
      · exact ⟨by dsimp only [Subscription.yield]; omega, le_rfl⟩
      · exact ⟨le_rfl, by dsimp only; omega⟩
    rcases hq rest hrest (e :: front) x back (by rw [hqueue, hitems]; rfl) r hr (by omega) hx with
      h | h
    · exact Or.inl h
    · rcases List.mem_cons.1 h with rfl | h
      · omega
      · exact Or.inr h
  | idle => cases h; exact hq

namespace Watch

variable (w : Watch .run after maxsize δ)

/-- Every publication hands over in turn. -/
def HandedInTurn : Prop := ∀ n i, w.act n = .send i → HandsInTurn (w.state n) i

theorem HandedInTurn.inTurn {w : Watch .run after maxsize δ} (hw : w.HandedInTurn) : w.InTurn := by
  have hqueued : ∀ n, QueuedInTurn (w.state n) := by
    intro n
    induction n with
    | zero =>
      rw [w.start]
      intro rest hrest
      cases hrest
    | succ n ih => exact ih.step (w.durable n) (w.sane n) (hw n) (w.step n)
  intro n ha e hhead hlt r hr hre
  by_contra hcur
  have hstep := w.step n
  rw [ha] at hstep
  obtain ⟨x, items, hp, hq, -⟩ := Subscription.step_take hstep
  obtain rfl : x = e := by rw [hq] at hhead; exact Option.some.inj hhead
  rcases hqueued n [] hp [] x items hq r hr (by omega) hre with h | h <;> cases h

end Watch

/-- **The run bus delivers every durable event exactly once** to a subscriber that keeps reading,
    exactly if no event it takes from its queue is ahead of a durable event that it has not passed;
    which is so if every publication hands over in turn. -/
theorem run_events_delivered (w : Watch .run after maxsize δ) (hk : w.KeepsReading) :
    (w.ExactlyOnce ↔ w.InTurn) ∧ (w.HandedInTurn → w.InTurn) :=
  ⟨w.exactlyOnce_iff hk, Watch.HandedInTurn.inTurn⟩

namespace Watch

/-- These steps, and then one step again and again that changes nothing. -/
def along (kind : ReaderKind) (after maxsize : Nat) (steps : List (SubscriptionStep δ))
    (last : SubscriptionStep δ) (final : Subscription δ)
    (hsteps : steps.foldlM (Subscription.step kind) (Subscription.initial after maxsize) =
      some final)
    (hlast : final.step kind last = some final) : Watch kind after maxsize δ where
  state n := ((steps.take n).foldlM (Subscription.step kind)
    (Subscription.initial after maxsize)).getD final
  act n := steps.getD n last
  start := by simp
  step n := by
    rcases Nat.lt_or_ge n steps.length with hn | hn
    · have hsplit : steps = steps.take (n + 1) ++ steps.drop (n + 1) :=
        (List.take_append_drop _ _).symm
      rw [hsplit, List.foldlM_append] at hsteps
      obtain ⟨σ', hσ', -⟩ := Option.bind_eq_some_iff.1 hsteps
      have htake : steps.take (n + 1) = steps.take n ++ [steps.getD n last] := by
        rw [List.take_add_one, List.getElem?_eq_getElem hn, List.getD_eq_getElem _ _ hn]
        rfl
      have hσ := hσ'
      rw [htake, List.foldlM_append] at hσ
      obtain ⟨σ, hσ, hstep⟩ := Option.bind_eq_some_iff.1 hσ
      rw [hσ, hσ']
      simpa using hstep
    · rw [List.take_of_length_le hn, List.take_of_length_le (by omega), hsteps,
        List.getD_eq_default _ _ hn]
      exact hlast

section
variable {steps : List (SubscriptionStep δ)} {last : SubscriptionStep δ} {final : Subscription δ}
  {hsteps : steps.foldlM (Subscription.step kind) (Subscription.initial after maxsize) = some final}
  {hlast : final.step kind last = some final}

theorem along_state {n : Nat} (hn : steps.length ≤ n) :
    (along kind after maxsize steps last final hsteps hlast).state n = final := by
  simp only [along]
  rw [List.take_of_length_le hn, hsteps]
  rfl

theorem along_act {n : Nat} (hn : steps.length ≤ n) :
    (along kind after maxsize steps last final hsteps hlast).act n = last :=
  List.getD_eq_default _ _ hn

theorem along_act_mem (n : Nat) :
    (along kind after maxsize steps last final hsteps hlast).act n ∈ steps ++ [last] := by
  rcases Nat.lt_or_ge n steps.length with hn | hn
  · refine List.mem_append_left _ ?_
    show steps.getD n last ∈ steps
    rw [List.getD_eq_getElem _ _ hn]
    exact List.getElem_mem hn
  · rw [along_act hn]
    exact List.mem_append_right _ (List.mem_singleton_self _)

/-- Only what is yielded in the end is yielded. -/
theorem along_yielded {n : Nat} {e : StreamEvent δ}
    (he : e ∈ ((along kind after maxsize steps last final hsteps hlast).state n).yielded) :
    e ∈ final.yielded := by
  have h := (yielded_grow _ (Nat.le_max_left n steps.length)).subset he
  rwa [along_state (Nat.le_max_right n steps.length)] at h

theorem along_rows {n : Nat} {e : StreamEvent δ}
    (he : e ∈ ((along kind after maxsize steps last final hsteps hlast).state n).rows) :
    e ∈ final.rows := by
  have h := (rows_grow _ (Nat.le_max_left n steps.length)).subset he
  rwa [along_state (Nat.le_max_right n steps.length)] at h

/-- The subscriber reads to the end, and polls or waits after it. -/
theorem along_keepsReading (h : last.reads = true ∨
    ∀ a : SubscriptionStep δ, a.reads = true → final.step kind a = none) :
    (along kind after maxsize steps last final hsteps hlast).KeepsReading := by
  intro n
  refine ⟨max n steps.length, Nat.le_max_left _ _, ?_⟩
  rw [along_act (Nat.le_max_right _ _), along_state (Nat.le_max_right _ _)]
  exact h

end

end Watch

namespace Sample

/-- The events `1` and `2`. -/
def first : StreamEvent String := ⟨1, "first"⟩
def second : StreamEvent String := ⟨2, "second"⟩

/-- An event of another process is found by polling. -/
def polling : Watch .run 0 1000 String :=
  .along .run 0 1000 [.register, .read, .commit first false, .read, .next] .read
    { rows := [first], phase := .reading [], cursor := 1, yielded := [first] }
    (by decide +kernel) (by decide +kernel)

/-- An event of this process overtakes one of another process. -/
def overtaking : Watch .run 0 1000 String :=
  .along .run 0 1000 [.register, .read, .commit first false, .commit second true, .send 0, .take]
    .read { rows := [first, second], phase := .reading [], cursor := 2, yielded := [second] }
    (by decide +kernel) (by decide +kernel)

end Sample

/-- A subscriber that gets its events by polling. -/
theorem run_events_delivered_polling : Sample.polling.ExactlyOnce := by
  obtain ⟨hiff, hhanded⟩ := run_events_delivered Sample.polling
    (Watch.along_keepsReading (Or.inl rfl))
  refine hiff.2 (hhanded fun n i ha => ?_)
  have hmem : Sample.polling.act n ∈ _ := Watch.along_act_mem n
  rw [ha] at hmem
  simp at hmem

/-- An event of another process that is overtaken by a local one never arrives. -/
theorem run_event_skipped : ¬ ∀ w : Watch .run 0 1000 String, w.KeepsReading → w.ExactlyOnce := by
  intro h
  obtain ⟨m, hm⟩ := (h Sample.overtaking (Watch.along_keepsReading (Or.inl rfl))).complete 6
    Sample.first (by decide +kernel) (by decide)
  have := Watch.along_yielded hm
  revert this
  decide

/-! ## The conversation bus -/

/-- The event that a step hands to the queue of the registered subscriber. -/
def Subscription.given (σ : Subscription δ) : SubscriptionStep δ → List (StreamEvent δ)
  | .send i => if σ.phase matches .outside then [] else σ.sending[i]?.toList
  | _ => []

theorem Subscription.given_inside {σ : Subscription δ} {i : Nat} (hp : σ.phase ≠ .outside) :
    σ.given (.send i) = σ.sending[i]?.toList := by
  unfold given
  dsimp only
  split
  · rename_i h; exact absurd h hp
  · rfl

theorem Subscription.given_outside {σ : Subscription δ} {a : SubscriptionStep δ}
    (hp : σ.phase = .outside) : σ.given a = [] := by
  cases a <;> simp [given, hp]

/-- What is handed over is durable. -/
theorem Durable.given {σ : Subscription δ} (hd : Durable σ) {a : SubscriptionStep δ}
    {e : StreamEvent δ} (he : e ∈ σ.given a) : e ∈ σ.rows := by
  by_cases hp : σ.phase = .outside
  · rw [Subscription.given_outside hp] at he
    cases he
  · cases a with
    | send i =>
      rw [Subscription.given_inside hp] at he
      exact hd.sending e (List.mem_of_getElem? (Option.mem_toList.1 he))
    | _ => cases he

namespace Watch

variable (w : Watch .conversation after maxsize δ)

/-- The events handed to the queue of the subscriber so far, the oldest first. -/
def handed : Nat → List (StreamEvent δ)
  | 0 => []
  | n + 1 => handed n ++ (w.state n).given (w.act n)

/-- Exactly the events after the backlog are handed over, in order, and the queue has room for
    them. -/
structure HandedAfterBacklog : Prop where
  later : ∀ k n, w.act k = .read → ∀ e ∈ w.handed n, e ∉ (w.state k).rows
  beyond : ∀ n, ∀ e ∈ w.handed n, after < e.sequence
  ordered : ∀ n, (w.handed n).Pairwise (·.sequence < ·.sequence)
  room : ∀ n i, w.act n = .send i → (w.state n).phase ≠ .outside → (w.state n).queue.full = false
  all : ∀ k n, w.act k = .read → ∀ e ∈ (w.state n).rows, after < e.sequence →
    e ∉ (w.state k).rows → ∃ m, e ∈ w.handed m

variable {w}

theorem mem_handed {n : Nat} {e : StreamEvent δ} (he : e ∈ w.handed n) : e ∈ (w.state n).rows := by
  induction n with
  | zero => cases he
  | succ n ih =>
    refine (Subscription.step_rows (w.step n)).subset ?_
    rcases List.mem_append.1 he with he | he
    · exact ih he
    · exact (w.durable n).given he

end Watch

/-- Before the backlog is read, nothing is yielded, and the queue holds what was handed over. -/
structure Early (after : Nat) (handed : List (StreamEvent δ)) (σ : Subscription δ) : Prop where
  phase : σ.phase = .outside ∨ σ.phase = .registered
  yielded : σ.yielded = []
  cursor : σ.cursor = after
  queue : σ.queue.items = handed

/-- After the backlog is read, the subscriber gets it, and then what is handed over. -/
structure Late (after : Nat) (all : List (StreamEvent δ)) (σ : Subscription δ) : Prop where
  reading : ∃ rest, σ.phase = .reading rest ∧ σ.yielded ++ rest ++ σ.queue.items = all
  cursor : σ.cursor = after

/-- A subscriber that reads and cannot go on has nothing left. -/
theorem Subscription.blocked_reading {σ : Subscription δ} {rest : List (StreamEvent δ)}
    (hp : σ.phase = .reading rest)
    (h : ∀ a : SubscriptionStep δ, a.reads = true → σ.step kind a = none) :
    rest = [] ∧ σ.queue.items = [] := by
  cases rest with
  | nil =>
    refine ⟨rfl, ?_⟩
    cases hq : σ.queue.items with
    | nil => rfl
    | cons x items =>
      have := h .take rfl
      simp [step, takeEvent, hp, hq] at this
  | cons x rest =>
    have := h .next rfl
    simp [step, nextRow, hp] at this

/-- Before the backlog is read, the subscriber can only register. -/
theorem Subscription.step_early {σ σ' : Subscription δ} {a : SubscriptionStep δ}
    (hp : σ.phase = .outside ∨ σ.phase = .registered) (ha : a ≠ .read)
    (h : σ.step kind a = some σ') :
    (a = .register ∧ σ.phase = .outside ∧ σ'.phase = .registered) ∨
      (a.reads = false ∧ σ'.phase = σ.phase) := by
  cases a with
  | commit e here =>
    obtain ⟨-, rfl⟩ := step_commit h
    exact Or.inr ⟨rfl, rfl⟩
  | send i =>
    obtain ⟨e, -, rfl⟩ := step_send h
    exact Or.inr ⟨rfl, rfl⟩
  | register =>
    obtain ⟨hp, rfl⟩ := step_register h
    exact Or.inl ⟨rfl, hp, rfl⟩
  | read => exact absurd rfl ha
  | next =>
    obtain ⟨e, rest, hp', -⟩ := step_next h
    rcases hp with hp | hp <;> cases hp.symm.trans hp'
  | take =>
    obtain ⟨e, items, hp', -⟩ := step_take h
    rcases hp with hp | hp <;> cases hp.symm.trans hp'
  | idle =>
    cases h
    exact Or.inr ⟨rfl, rfl⟩

/-- A hand-over to a queue with room. -/
theorem Subscription.handOver_items {σ : Subscription δ} {i : Nat} {e : StreamEvent δ}
    (he : σ.sending[i]? = some e) (hroom : σ.phase ≠ .outside → σ.queue.full = false) :
    (σ.handOver e).items = σ.queue.items ++ σ.given (.send i) := by
  by_cases hp : σ.phase = .outside
  · rw [handOver_outside hp, given_outside hp, List.append_nil]
  · rw [handOver_inside hp, given_inside hp, he, EventQueue.offer, hroom hp]
    rfl

theorem Early.step {σ σ' : Subscription δ} {a : SubscriptionStep δ} {handed : List (StreamEvent δ)}
    (he : Early after handed σ)
    (hroom : ∀ i, a = .send i → σ.phase ≠ .outside → σ.queue.full = false)
    (hread : a = .read → handed = []) (h : σ.step .conversation a = some σ') :
    (a ≠ .read ∧ Early after (handed ++ σ.given a) σ') ∨
      (a = .read ∧ Late after (Stream.after σ.rows after) σ') := by
  obtain ⟨hp, hy, hc, hq⟩ := he
  cases a with
  | commit e here =>
    obtain ⟨-, rfl⟩ := Subscription.step_commit h
    exact Or.inl ⟨by simp, hp, hy, hc, by simpa [Subscription.given] using hq⟩
  | send i =>
    obtain ⟨e, he, rfl⟩ := Subscription.step_send h
    refine Or.inl ⟨by simp, hp, hy, hc, ?_⟩
    dsimp only
    rw [Subscription.handOver_items he (hroom i rfl), hq]
  | register =>
    obtain ⟨-, rfl⟩ := Subscription.step_register h
    exact Or.inl ⟨by simp, Or.inr rfl, hy, hc, by simpa [Subscription.given] using hq⟩
  | read =>
    obtain ⟨-, rfl⟩ := Subscription.step_read h
    refine Or.inr ⟨rfl, ⟨_, rfl, ?_⟩, hc⟩
    dsimp only
    rw [hy, hq, hread rfl, hc]
    simp
  | next =>
    obtain ⟨e, rest, hp', -⟩ := Subscription.step_next h
    rcases hp with hp | hp <;> cases hp.symm.trans hp'
  | take =>
    obtain ⟨e, items, hp', -⟩ := Subscription.step_take h
    rcases hp with hp | hp <;> cases hp.symm.trans hp'
  | idle =>
    cases h
    exact Or.inl ⟨by simp, hp, hy, hc, by simpa [Subscription.given] using hq⟩

theorem Late.step {σ σ' : Subscription δ} {a : SubscriptionStep δ} {all : List (StreamEvent δ)}
    (hl : Late after all σ) (hroom : ∀ i, a = .send i → σ.phase ≠ .outside → σ.queue.full = false)
    (h : σ.step .conversation a = some σ') :
    Late after (all ++ σ.given a) σ' ∧
      (a.reads = true → σ'.yielded.length = σ.yielded.length + 1) := by
  obtain ⟨⟨rest, hp, rfl⟩, hc⟩ := hl
  cases a with
  | commit e here =>
    obtain ⟨-, rfl⟩ := Subscription.step_commit h
    exact ⟨⟨⟨rest, hp, by simp [Subscription.given]⟩, hc⟩, fun hr => by cases hr⟩
  | send i =>
    obtain ⟨e, he, rfl⟩ := Subscription.step_send h
    refine ⟨⟨⟨rest, hp, ?_⟩, hc⟩, fun hr => by cases hr⟩
    dsimp only
    rw [Subscription.handOver_items he (hroom i rfl), List.append_assoc _ _ (σ.given _)]
  | register =>
    obtain ⟨hp', -⟩ := Subscription.step_register h
    cases hp.symm.trans hp'
  | read =>
    obtain ⟨hp' | ⟨hk, -⟩, -⟩ := Subscription.step_read h
    · cases hp.symm.trans hp'
    · cases hk
  | next =>
    obtain ⟨e, rest', hp', rfl⟩ := Subscription.step_next h
    cases hp.symm.trans hp'
    exact ⟨⟨⟨rest', rfl, by simp [Subscription.given]⟩, hc⟩, fun _ => by simp⟩
  | take =>
    obtain ⟨e, items, hp', hq, rfl⟩ := Subscription.step_take h
    cases hp.symm.trans hp'
    refine ⟨⟨⟨[], hp, ?_⟩, hc⟩, fun _ => ?_⟩
    · simp [Subscription.receive, Subscription.yield, Subscription.given, hq]
    · simp [Subscription.receive, Subscription.yield]
  | idle =>
    cases h
    exact ⟨⟨⟨rest, hp, by simp [Subscription.given]⟩, hc⟩, fun hr => by cases hr⟩

namespace Watch

variable {w : Watch .conversation after maxsize δ}

/-- The backlog read at step `k` and what is handed over. -/
def expected (w : Watch .conversation after maxsize δ) (k n : Nat) : List (StreamEvent δ) :=
  Stream.after (w.state k).rows after ++ w.handed n

theorem HandedAfterBacklog.late_step (hw : w.HandedAfterBacklog) {k n : Nat}
    (hl : Late after (w.expected k n) (w.state n)) :
    Late after (w.expected k (n + 1)) (w.state (n + 1)) ∧
      ((w.act n).reads = true →
        (w.state (n + 1)).yielded.length = (w.state n).yielded.length + 1) := by
  have h := hl.step (hw.room n) (w.step n)
  rwa [expected, List.append_assoc] at h

/-- Every state is before or after the read of the backlog. -/
theorem HandedAfterBacklog.early_or_late (hw : w.HandedAfterBacklog) (n : Nat) :
    Early after (w.handed n) (w.state n) ∨
      ∃ k, k < n ∧ w.act k = .read ∧ Late after (w.expected k n) (w.state n) := by
  induction n with
  | zero =>
    rw [w.start]
    exact Or.inl ⟨Or.inl rfl, rfl, rfl, rfl⟩
  | succ n ih =>
    rcases ih with he | ⟨k, hk, ha, hl⟩
    · have hread : w.act n = .read → w.handed n = [] := by
        intro ha
        refine List.eq_nil_iff_forall_not_mem.2 fun e he => ?_
        exact hw.later n n ha e he (mem_handed he)
      rcases he.step (hw.room n) hread (w.step n) with ⟨-, h⟩ | ⟨ha, h⟩
      · exact Or.inl h
      · refine Or.inr ⟨n, by omega, ha, ?_⟩
        have hnil : w.handed (n + 1) = [] := by
          rw [handed, hread ha, ha]
          rfl
        rw [expected, hnil, List.append_nil]
        exact h
    · exact Or.inr ⟨k, by omega, ha, (hw.late_step hl).1⟩

/-- What the subscriber is to get is durable and in increasing order. -/
theorem HandedAfterBacklog.expected_sorted (hw : w.HandedAfterBacklog) {k n : Nat} (hk : k ≤ n)
    (ha : w.act k = .read) : (w.expected k n).Pairwise (·.sequence < ·.sequence) := by
  rw [expected, List.pairwise_append, Subscription.after_eq (w.durable k).sorted]
  refine ⟨(w.durable k).sorted.filter _, hw.ordered n, fun r hr e he => ?_⟩
  have hr := (List.mem_filter.1 hr).1
  -- the event was committed after the rows that were read
  obtain ⟨new, hnew⟩ := w.rows_grow hk
  have hpair := (w.durable n).sorted
  rw [← hnew, List.pairwise_append] at hpair
  refine hpair.2.2 r hr e ?_
  have hmem := mem_handed he
  rw [← hnew] at hmem
  rcases List.mem_append.1 hmem with h | h
  · exact absurd h (hw.later k n ha e he)
  · exact h

theorem HandedAfterBacklog.mem_expected (hw : w.HandedAfterBacklog) {k n : Nat} (hk : k ≤ n)
    {e : StreamEvent δ} (he : e ∈ w.expected k n) : e ∈ (w.state n).rows ∧ after < e.sequence := by
  rcases List.mem_append.1 he with he | he
  · obtain ⟨hrow, hlt⟩ := Subscription.mem_after.1 he
    exact ⟨(w.rows_grow hk).subset hrow, hlt⟩
  · exact ⟨mem_handed he, hw.beyond n e he⟩

theorem handed_grow {n m : Nat} (h : n ≤ m) : w.handed n <+: w.handed m := by
  induction m, h using Nat.le_induction with
  | base => exact List.prefix_rfl
  | succ m hm ih => exact ih.trans (List.prefix_append _ _)

/-- A subscriber that keeps reading reads the backlog. -/
theorem HandedAfterBacklog.exists_read (hw : w.HandedAfterBacklog) (hk : w.KeepsReading) :
    ∃ k n, k < n ∧ w.act k = .read ∧ Late after (w.expected k n) (w.state n) := by
  let unregistered (n : Nat) : Nat := if (w.state n).phase matches .outside then 1 else 0
  have hearly : ∀ n, (¬ ∃ k, k < n + 1 ∧ w.act k = .read ∧
      Late after (w.expected k (n + 1)) (w.state (n + 1))) → w.act n ≠ .read ∧
      ((w.state n).phase = .outside ∨ (w.state n).phase = .registered) := by
    intro n hnot
    rcases hw.early_or_late n with he | ⟨k, hkn, ha, hl⟩
    · refine ⟨fun ha => ?_, he.phase⟩
      rcases hw.early_or_late (n + 1) with he' | h
      · have hstep := w.step n
        rw [ha] at hstep
        obtain ⟨-, hs⟩ := Subscription.step_read hstep
        rcases he'.phase with h | h <;> rw [hs] at h <;> cases h
      · exact hnot h
    · exact absurd ⟨k, by omega, ha, (hw.late_step hl).1⟩ hnot
  have hle : ∀ n, 0 ≤ n → (¬ ∃ k, k < n + 1 ∧ w.act k = .read ∧
      Late after (w.expected k (n + 1)) (w.state (n + 1))) →
      unregistered (n + 1) ≤ unregistered n := by
    intro n _ hnot
    obtain ⟨hread, hp⟩ := hearly n hnot
    rcases Subscription.step_early hp hread (w.step n) with ⟨-, -, h⟩ | ⟨-, h⟩
    · simp [unregistered, h]
    · simp [unregistered, h]
  obtain ⟨n, -, k, h⟩ := eventually_of_measure (q := fun n => ∃ k, k < n ∧ w.act k = .read ∧
      Late after (w.expected k n) (w.state n)) unregistered 0 hle fun n _ => by
    obtain ⟨m, hm, hr⟩ := hk n
    refine ⟨m, hm, fun hnot => ?_⟩
    obtain ⟨hread, hp⟩ := hearly m hnot
    rcases hr with hr | hblocked
    · rcases Subscription.step_early hp hread (w.step m) with ⟨-, hp, h⟩ | ⟨hr', -⟩
      · simp [unregistered, h, hp]
      · rw [hr] at hr'; cases hr'
    · exfalso
      rcases hp with hp | hp
      · have := hblocked .register rfl
        simp [Subscription.step, hp] at this
      · have := hblocked .read rfl
        simp [Subscription.step, Subscription.readRows, hp] at this
  exact ⟨k, n, h⟩

/-- What the subscriber is to get arrives. -/
theorem HandedAfterBacklog.arrives (hw : w.HandedAfterBacklog) (hk : w.KeepsReading) {k n : Nat}
    (hl : Late after (w.expected k n) (w.state n)) {e : StreamEvent δ} {m : Nat} (hm : n ≤ m)
    (he : e ∈ w.expected k m) : ∃ m, e ∈ (w.state m).yielded := by
  have hlate : ∀ j, n ≤ j → Late after (w.expected k j) (w.state j) := by
    intro j hj
    induction j, hj using Nat.le_induction with
    | base => exact hl
    | succ j hj ih => exact (hw.late_step ih).1
  obtain ⟨i, hi⟩ := List.mem_iff_getElem?.1 he
  have hplace : ∀ j, m ≤ j → (w.expected k j)[i]? = some e := by
    intro j hj
    obtain ⟨more, hmore⟩ := handed_grow (w := w) hj
    rw [expected, ← hmore, ← List.append_assoc]
    rw [List.getElem?_append_left]
    · exact hi
    · exact (List.getElem?_eq_some_iff.1 hi).1
  -- the events that are yielded before it
  have hle : ∀ j, m ≤ j → e ∉ (w.state (j + 1)).yielded →
      i + 1 - (w.state (j + 1)).yielded.length ≤ i + 1 - (w.state j).yielded.length := by
    intro j _ _
    exact Nat.sub_le_sub_left (w.yielded_grow (Nat.le_succ j)).length_le _
  obtain ⟨j, -, hj⟩ := eventually_of_measure (q := fun j => e ∈ (w.state j).yielded)
    (fun j => i + 1 - (w.state j).yielded.length) m hle fun j hj => by
      obtain ⟨l, hjl, hr⟩ := hk j
      refine ⟨l, hjl, fun hnot => ?_⟩
      have hnot' : e ∉ (w.state l).yielded :=
        fun h => hnot ((w.yielded_grow (Nat.le_succ l)).subset h)
      have hat := hplace l (by omega)
      have hlate := hlate l (by omega)
      obtain ⟨rest, hp, hall⟩ := hlate.reading
      have hlen : (w.state l).yielded.length ≤ i := by
        by_contra hlt
        rw [← hall, List.append_assoc, List.getElem?_append_left (by omega)] at hat
        exact hnot' (List.mem_of_getElem? hat)
      rcases hr with hr | hblocked
      · have := (hw.late_step hlate).2 hr
        omega
      · exfalso
        have hrest : rest = [] ∧ (w.state l).queue.items = [] :=
          Subscription.blocked_reading hp hblocked
        rw [← hall, hrest.1, hrest.2, List.append_nil, List.append_nil] at hat
        exact hnot' (List.mem_of_getElem? hat)
  exact ⟨j, hj⟩

end Watch

/-- **The conversation bus delivers every durable event exactly once** to a subscriber that keeps
    reading, if exactly the events after its backlog are handed to its queue, in order and while
    there is room. -/
theorem conversation_events_delivered (w : Watch .conversation after maxsize δ)
    (hk : w.KeepsReading) (hw : w.HandedAfterBacklog) : w.ExactlyOnce := by
  have hprefix : ∀ n, (w.state n).yielded = [] ∨ ∃ k, k < n ∧ w.act k = .read ∧
      (w.state n).yielded <+: w.expected k n := by
    intro n
    rcases hw.early_or_late n with he | ⟨k, hkn, ha, ⟨⟨rest, -, hall⟩, -⟩⟩
    · exact Or.inl he.yielded
    · refine Or.inr ⟨k, hkn, ha, ?_⟩
      rw [← hall, List.append_assoc]
      exact List.prefix_append _ _
  refine ⟨fun n => ?_, fun n e he => ?_, fun n e he hafter => ?_⟩
  · rcases hprefix n with h | ⟨k, hkn, ha, h⟩
    · rw [h]; exact List.Pairwise.nil
    · exact (hw.expected_sorted hkn.le ha).sublist h.sublist
  · rcases hprefix n with h | ⟨k, hkn, ha, h⟩
    · rw [h] at he; cases he
    · exact hw.mem_expected hkn.le (h.subset he)
  · obtain ⟨k, n₀, hkn, ha, hl⟩ := hw.exists_read hk
    by_cases hold : e ∈ (w.state k).rows
    · refine hw.arrives hk hl le_rfl (List.mem_append_left _ ?_)
      exact Subscription.mem_after.2 ⟨hold, hafter⟩
    · obtain ⟨m, hm⟩ := hw.all k n ha e he hafter hold
      refine hw.arrives hk hl (Nat.le_max_left n₀ m) (List.mem_append_right _ ?_)
      exact (Watch.handed_grow (Nat.le_max_right n₀ m)).subset hm

namespace Sample

/-- An event of this process after the backlog. -/
def live : Watch .conversation 0 1000 String :=
  .along .conversation 0 1000 [.register, .read, .commit first true, .send 0, .take] .idle
    { rows := [first], phase := .reading [], cursor := 0, yielded := [first] }
    (by decide +kernel) (by decide +kernel)

/-- An event of another process after the backlog. -/
def foreign : Watch .conversation 0 1000 String :=
  .along .conversation 0 1000 [.register, .read, .commit first false] .idle
    { rows := [first], phase := .reading [], cursor := 0 } (by decide +kernel) (by decide +kernel)

/-- An event of this process between the registration and the backlog. -/
def twice : Watch .conversation 0 1000 String :=
  .along .conversation 0 1000 [.register, .commit first true, .send 0, .read, .next, .take] .idle
    { rows := [first], phase := .reading [], cursor := 0, yielded := [first, first] }
    (by decide +kernel) (by decide +kernel)

end Sample

/-- A subscriber that waits for events. -/
theorem waits_blocked {rows yielded : List (StreamEvent String)} (a : SubscriptionStep String)
    (ha : a.reads = true) :
    ({ rows, phase := .reading [], cursor := 0, yielded } : Subscription String).step
      .conversation a = none := by
  cases a <;> first | rfl | cases ha

/-- A subscriber that gets an event from its queue. -/
theorem conversation_events_delivered_live : Sample.live.ExactlyOnce := by
  have hidle : ∀ n, 5 ≤ n → Sample.live.act n = .idle := fun n hn => Watch.along_act hn
  have hhanded : ∀ n, 5 ≤ n → Sample.live.handed n = [Sample.first] := by
    intro n hn
    induction n, hn using Nat.le_induction with
    | base => decide +kernel
    | succ n hn ih => rw [Watch.handed, ih, hidle n hn]; rfl
  have hmem : ∀ n, Sample.live.handed n <+: [Sample.first] := fun n =>
    hhanded (max n 5) (Nat.le_max_right n 5) ▸ Watch.handed_grow (Nat.le_max_left n 5)
  have hread : ∀ k < 5, Sample.live.act k = .read → (Sample.live.state k).rows = [] := by
    decide +kernel
  have hroom : ∀ n < 5, (Sample.live.state n).queue.full = false := by decide +kernel
  have hbusy : ∀ n, Sample.live.act n ≠ .idle → n < 5 := by
    intro n hn
    by_contra hge
    exact hn (hidle n (by omega))
  refine conversation_events_delivered Sample.live
    (Watch.along_keepsReading (Or.inr waits_blocked)) ⟨?_, ?_, ?_, ?_, ?_⟩
  · intro k n ha e _
    rw [hread k (hbusy k (by rw [ha]; simp)) ha]
    exact List.not_mem_nil
  · intro n e he
    rw [List.mem_singleton.1 ((hmem n).subset he)]
    decide
  · intro n
    exact (List.pairwise_singleton _ _).sublist (hmem n).sublist
  · intro n i ha _
    exact hroom n (hbusy n (by rw [ha]; simp))
  · intro k n _ e he _ _
    refine ⟨5, ?_⟩
    rw [hhanded 5 le_rfl]
    exact Watch.along_rows he

/-- An event of another process never arrives, and an event that is in the backlog and in the queue
    arrives twice. -/
theorem conversation_events_differ :
    (¬ ∀ w : Watch .conversation 0 1000 String, w.KeepsReading →
      ∀ n, ∀ e ∈ (w.state n).rows, 0 < e.sequence → ∃ m, e ∈ (w.state m).yielded) ∧
    ¬ ∀ w : Watch .conversation 0 1000 String, w.KeepsReading →
      ∀ n, (w.state n).yielded.Pairwise (·.sequence < ·.sequence) := by
  constructor
  · intro h
    obtain ⟨m, hm⟩ := h Sample.foreign (Watch.along_keepsReading (Or.inr waits_blocked)) 3
      Sample.first (by decide +kernel) (by decide)
    have := Watch.along_yielded hm
    revert this
    decide
  · intro h
    exact absurd (h Sample.twice (Watch.along_keepsReading (Or.inr waits_blocked)) 6)
      (by decide +kernel)

end TracciaRuntime
