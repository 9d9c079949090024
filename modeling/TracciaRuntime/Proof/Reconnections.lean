/-
  What a client of an event stream gets, over all its connections.

  * `received_once`: the events it gets are durable and in increasing order, none of them twice,
    whatever the bus hands out and whenever connections break;
  * `received_gapless`: on the run bus, as long as no event taken from a queue is ahead of a
    durable one, it gets the events of the run from the first one on without a gap; the server
    ends the response after a final event only, and once there is nothing left to hand on the
    client has them all.
-/
import TracciaRuntime.Api.Streams
import TracciaRuntime.Proof.Delivery

namespace TracciaRuntime

open Machine

variable {δ : Type} {kind : ReaderKind} {type : δ → String} {start maxsize : Nat}

/-! ## Numbers -/

section
variable {l l' rows : List (StreamEvent δ)}

theorem lastSequence_concat (l : List (StreamEvent δ)) (e : StreamEvent δ) :
    lastSequence start (l ++ [e]) = e.sequence := by
  simp [lastSequence]

theorem lastSequence_cases (start : Nat) (l : List (StreamEvent δ)) :
    lastSequence start l = start ∨ ∃ e ∈ l, e.sequence = lastSequence start l := by
  rcases l.eq_nil_or_concat' with rfl | ⟨l', e, rfl⟩
  · exact .inl rfl
  · exact .inr ⟨e, by simp, (lastSequence_concat l' e).symm⟩

theorem le_lastSequence (start : Nat) (h : l.Pairwise (·.sequence < ·.sequence))
    {e : StreamEvent δ} (he : e ∈ l) : e.sequence ≤ lastSequence start l := by
  rcases l.eq_nil_or_concat' with rfl | ⟨l', x, rfl⟩
  · cases he
  · rw [lastSequence_concat]
    rcases List.mem_append.1 he with he | he
    · exact ((List.pairwise_append.1 h).2.2 e he x (List.mem_singleton_self _)).le
    · rw [List.mem_singleton.1 he]

theorem start_le_lastSequence (h : ∀ e ∈ l, start < e.sequence) : start ≤ lastSequence start l := by
  rcases lastSequence_cases start l with heq | ⟨e, he, heq⟩
  · exact heq.ge
  · exact heq ▸ (h e he).le

/-- No row is missing up to the last event. -/
def Gapless (rows : List (StreamEvent δ)) (start : Nat) (l : List (StreamEvent δ)) : Prop :=
  ∀ r ∈ rows, start < r.sequence → r.sequence ≤ lastSequence start l → r ∈ l

/-- What is lost on the way leaves no gap. -/
theorem Gapless.left (h : Gapless rows start (l ++ l'))
    (hl : (l ++ l').Pairwise (·.sequence < ·.sequence)) : Gapless rows start l := by
  intro r hr hlow hle
  rcases lastSequence_cases start l with heq | ⟨e, he, heq⟩
  · omega
  · have hlast : r.sequence ≤ lastSequence start (l ++ l') :=
      (hle.trans heq.ge).trans (le_lastSequence start hl (List.mem_append_left _ he))
    rcases List.mem_append.1 (h r hr hlow hlast) with hr' | hr'
    · exact hr'
    · have := (List.pairwise_append.1 hl).2.2 e he r hr'
      omega

/-- New rows come after the last event. -/
theorem Gapless.grow (h : Gapless rows start l) (hl : ∀ e ∈ l, e ∈ rows)
    {rows' : List (StreamEvent δ)} (hgrow : rows <+: rows')
    (hrows : rows'.Pairwise (·.sequence < ·.sequence)) : Gapless rows' start l := by
  obtain ⟨t, rfl⟩ := hgrow
  intro r hr hlow hle
  rcases List.mem_append.1 hr with hr | hr
  · exact h r hr hlow hle
  · rcases lastSequence_cases start l with heq | ⟨e, he, heq⟩
    · omega
    · have := (List.pairwise_append.1 hrows).2.2 e (hl e he) r hr
      omega

/-- A list of rows without gaps is an initial part of them. -/
theorem isPrefix_of_closed (hrows : rows.Pairwise (·.sequence < ·.sequence))
    (hl : l.Pairwise (·.sequence < ·.sequence)) (hmem : ∀ e ∈ l, e ∈ rows)
    (hclosed : ∀ r ∈ rows, ∀ e ∈ l, r.sequence ≤ e.sequence → r ∈ l) : l <+: rows := by
  induction l generalizing rows with
  | nil => exact List.nil_prefix
  | cons e l ih =>
    cases rows with
    | nil => cases hmem e List.mem_cons_self
    | cons r rows =>
      obtain ⟨hr, hrows⟩ := List.pairwise_cons.1 hrows
      obtain ⟨he, hsorted⟩ := List.pairwise_cons.1 hl
      -- the first row is the first event
      have hfirst : r = e := by
        rcases List.mem_cons.1 (hmem e List.mem_cons_self) with heq | hin
        · exact heq.symm
        · have hlt := hr e hin
          rcases List.mem_cons.1 (hclosed r List.mem_cons_self e List.mem_cons_self hlt.le) with
            heq | hin'
          · exact heq
          · have := he r hin'
            omega
      subst hfirst
      refine List.cons_prefix_cons.2 ⟨rfl, ih hrows hsorted (fun x hx => ?_) fun x hx y hy hle => ?_⟩
      · rcases List.mem_cons.1 (hmem x (List.mem_cons_of_mem _ hx)) with rfl | hin
        · exact absurd (he x hx) (lt_irrefl _)
        · exact hin
      · rcases List.mem_cons.1 (hclosed x (List.mem_cons_of_mem _ hx) y
          (List.mem_cons_of_mem _ hy) hle) with rfl | hin
        · exact absurd (hr x hx) (lt_irrefl _)
        · exact hin

theorem Gapless.isPrefix (h : Gapless rows start l)
    (hrows : rows.Pairwise (·.sequence < ·.sequence)) (hl : l.Pairwise (·.sequence < ·.sequence))
    (hmem : ∀ e ∈ l, e ∈ rows ∧ start < e.sequence) : l <+: Stream.after rows start := by
  rw [Subscription.after_eq hrows]
  refine isPrefix_of_closed (hrows.filter _) hl (fun e he => ?_) fun r hr e he hle => ?_
  · simpa using hmem e he
  · obtain ⟨hrow, hlow⟩ := List.mem_filter.1 hr
    exact h r hrow (by simpa using hlow) (hle.trans (le_lastSequence start hl he))

end

/-! ## The subscriber -/

/-- On both buses a subscriber yields rows. -/
structure Drawn (σ : Subscription δ) : Prop where
  yielded : ∀ e ∈ σ.yielded, e ∈ σ.rows
  rest : ∀ rest, σ.phase = .reading rest → ∀ e ∈ rest, e ∈ σ.rows

theorem Drawn.step {σ σ' : Subscription δ} {a : SubscriptionStep δ} (hd : Durable σ)
    (hw : Drawn σ) (h : σ.step kind a = some σ') : Drawn σ' := by
  cases a with
  | commit e here =>
    obtain ⟨-, rfl⟩ := Subscription.step_commit h
    exact ⟨fun x hx => List.mem_append_left _ (hw.yielded x hx),
      fun rest hp x hx => List.mem_append_left _ (hw.rest rest hp x hx)⟩
  | send i =>
    obtain ⟨e, -, rfl⟩ := Subscription.step_send h
    exact ⟨hw.yielded, hw.rest⟩
  | register =>
    obtain ⟨-, rfl⟩ := Subscription.step_register h
    exact ⟨hw.yielded, fun rest hp => by (cases hp)⟩
  | read =>
    obtain ⟨-, rfl⟩ := Subscription.step_read h
    refine ⟨hw.yielded, fun rest hp x hx => ?_⟩
    cases hp
    exact (Subscription.mem_after.1 hx).1
  | next =>
    obtain ⟨e, rest, hp, rfl⟩ := Subscription.step_next h
    refine ⟨fun x hx => ?_, fun rest' hp' x hx => ?_⟩
    · rcases List.mem_append.1 hx with hx | hx
      · exact hw.yielded x hx
      · exact hw.rest _ hp x (by simp [List.mem_singleton.1 hx])
    · cases hp'
      exact hw.rest _ hp x (List.mem_cons_of_mem _ hx)
  | take =>
    obtain ⟨e, items, hp, hq, rfl⟩ := Subscription.step_take h
    have hrow : e ∈ σ.rows := hd.queue e (by rw [hq]; exact List.mem_cons_self)
    have hyield : ∀ x ∈ σ.yielded ++ [e], x ∈ σ.rows := fun x hx => by
      rcases List.mem_append.1 hx with hx | hx
      · exact hw.yielded x hx
      · rwa [List.mem_singleton.1 hx]
    refine ⟨fun x hx => ?_, fun rest hp' x hx => ?_⟩
    · rw [Subscription.receive_rows]
      cases kind with
      | run =>
        unfold Subscription.receive at hx
        dsimp only at hx
        split at hx
        · exact hyield x hx
        · exact hw.yielded x hx
      | conversation => exact hyield x hx
    · rw [Subscription.receive_phase] at hp'
      rw [Subscription.receive_rows]
      exact hw.rest rest hp' x hx
  | idle =>
    cases h
    exact hw

namespace EventStream

variable {s s' : EventStream δ}

/-! ## The steps -/

section
variable [DecidableEq δ]

theorem step_bus {a : SubscriptionStep δ} (h : s.step kind type start maxsize (.bus a) = some s') :
    ∃ σ, s.subscription.step kind a = some σ ∧ s' = { s with subscription := σ } := by
  simp only [step] at h
  split at h
  · cases h
  · obtain ⟨σ, hσ, rfl⟩ := Option.map_eq_some_iff.1 h
    exact ⟨σ, hσ, rfl⟩

theorem step_handle (h : s.step kind type start maxsize .handle = some s') :
    s.connection = .streaming ∧
      ∃ e, s.subscription.yielded[s.handled]? = some e ∧ s' = s.handle kind type e := by
  simp only [step] at h
  split at h
  · rename_i e hc he
    cases h
    exact ⟨hc, e, he, rfl⟩
  · cases h

theorem step_receive (h : s.step kind type start maxsize .receive = some s') :
    ∃ e wire, s.wire = e :: wire ∧ s' = { s with wire, received := s.received ++ [e] } := by
  simp only [step] at h
  split at h
  · rename_i e wire hw
    cases h
    exact ⟨e, wire, hw, rfl⟩
  · cases h

theorem step_disconnect (h : s.step kind type start maxsize .disconnect = some s') :
    s.connection ≠ .closed ∧ s' = s.disconnect := by
  simp only [step] at h
  split at h
  · cases h
  · rename_i hc
    cases h
    exact ⟨hc, rfl⟩

theorem step_connect {sending : List (StreamEvent δ)}
    (h : s.step kind type start maxsize (.connect sending) = some s') :
    s.connection = .closed ∧ (∀ e ∈ sending, e ∈ s.subscription.rows) ∧
      s' = s.connect start maxsize sending := by
  simp only [step] at h
  split at h
  · rename_i hc
    cases h
    exact ⟨hc.1, hc.2, rfl⟩
  · cases h

end

/-- What an event does that the generator goes through. -/
theorem handle_cases (s : EventStream δ) (kind : ReaderKind) (type : δ → String)
    (e : StreamEvent δ) :
    (e.sequence ≤ s.delivered ∧ s.handle kind type e = { s with handled := s.handled + 1 }) ∨
    (s.delivered < e.sequence ∧ s.handle kind type e = { s with
      handled := s.handled + 1
      delivered := e.sequence
      wire := s.wire ++ [e]
      connection := if kind.ends type e then .returned else .streaming }) := by
  unfold handle
  split
  · exact .inl ⟨‹_›, rfl⟩
  · exact .inr ⟨not_le.1 ‹_›, rfl⟩

/-! ## The order -/

/-- What is received or on the way comes from the rows, in their order, and `delivered` is the
    number of the last of it. -/
structure Ordered (start : Nat) (s : EventStream δ) : Prop where
  durable : Durable s.subscription
  drawn : Drawn s.subscription
  increasing : (s.received ++ s.wire).Pairwise (·.sequence < ·.sequence)
  rows : ∀ e ∈ s.received ++ s.wire, e ∈ s.subscription.rows ∧ start < e.sequence
  delivered : s.connection ≠ .closed → s.delivered = lastSequence start (s.received ++ s.wire)
  wire : s.connection = .closed → s.wire = []

theorem Ordered.initial : (initial start maxsize : EventStream δ).Ordered start where
  durable := ⟨List.Pairwise.nil, fun e he => by (cases he), fun e he => by (cases he)⟩
  drawn := ⟨fun e he => by (cases he), fun rest hp => by (cases hp)⟩
  increasing := List.Pairwise.nil
  rows e he := by cases he
  delivered h := absurd rfl h
  wire _ := rfl

theorem Ordered.start_le (h : s.Ordered start) (hc : s.connection ≠ .closed) :
    start ≤ s.delivered := by
  rw [h.delivered hc]
  exact start_le_lastSequence fun e he => (h.rows e he).2

/-- An event is sent. -/
theorem Ordered.send (h : s.Ordered start) (hc : s.connection = .streaming) {e : StreamEvent δ}
    (he : e ∈ s.subscription.rows) (hlt : s.delivered < e.sequence) {c : Connection}
    (hopen : c ≠ .closed) : Ordered start { s with
      handled := s.handled + 1
      delivered := e.sequence
      wire := s.wire ++ [e]
      connection := c } := by
  have hstreaming : s.connection ≠ .closed := by rw [hc]; decide
  have hlow := h.start_le hstreaming
  refine ⟨h.durable, h.drawn, ?_, ?_, fun _ => ?_, fun hclosed => absurd hclosed hopen⟩
  · rw [← List.append_assoc, List.pairwise_append]
    refine ⟨h.increasing, List.pairwise_singleton _ _, fun x hx y hy => ?_⟩
    rw [List.mem_singleton.1 hy]
    have := le_lastSequence start h.increasing hx
    rw [← h.delivered hstreaming] at this
    omega
  · intro x hx
    rw [← List.append_assoc] at hx
    rcases List.mem_append.1 hx with hx | hx
    · exact h.rows x hx
    · rw [List.mem_singleton.1 hx]
      exact ⟨he, by omega⟩
  · rw [← List.append_assoc, lastSequence_concat]

theorem Ordered.step [DecidableEq δ] {a : EventStreamStep δ} (h : s.Ordered start)
    (hs : s.step kind type start maxsize a = some s') : s'.Ordered start := by
  cases a with
  | bus a =>
    obtain ⟨σ, hσ, rfl⟩ := step_bus hs
    exact ⟨h.durable.step hσ, h.drawn.step h.durable hσ, h.increasing,
      fun e he => ⟨(Subscription.step_rows hσ).subset (h.rows e he).1, (h.rows e he).2⟩,
      h.delivered, h.wire⟩
  | handle =>
    obtain ⟨hc, e, he, rfl⟩ := step_handle hs
    rcases s.handle_cases kind type e with ⟨-, heq⟩ | ⟨hlt, heq⟩
    · rw [heq]
      exact ⟨h.durable, h.drawn, h.increasing, h.rows, h.delivered, h.wire⟩
    · rw [heq]
      refine h.send hc (h.drawn.yielded e (List.mem_of_getElem? he)) hlt ?_
      split <;> decide
  | receive =>
    obtain ⟨e, wire, hw, rfl⟩ := step_receive hs
    have hsame : (s.received ++ [e]) ++ wire = s.received ++ s.wire := by simp [hw]
    refine ⟨h.durable, h.drawn, ?_, ?_, ?_, fun hc => ?_⟩
    · rw [hsame]
      exact h.increasing
    · rw [hsame]
      exact h.rows
    · rw [hsame]
      exact h.delivered
    · have hnil := h.wire hc
      rw [hw] at hnil
      cases hnil
  | disconnect =>
    obtain ⟨-, rfl⟩ := step_disconnect hs
    have hreceived : s.received ++ [] = s.received := List.append_nil _
    refine ⟨⟨h.durable.sorted, h.durable.sending, h.durable.queue⟩,
      ⟨h.drawn.yielded, fun rest hp => by (cases hp)⟩, ?_, fun e he => ?_,
      fun hc => absurd rfl hc, fun _ => rfl⟩
    · rw [disconnect, hreceived]
      exact (List.pairwise_append.1 h.increasing).1
    · rw [disconnect, hreceived] at he
      exact h.rows e (List.mem_append_left _ he)
  | connect sending =>
    obtain ⟨hc, hsending, rfl⟩ := step_connect hs
    refine ⟨⟨h.durable.sorted, hsending, fun e he => by (cases he)⟩,
      ⟨fun e he => by (cases he), fun rest hp => by (cases hp)⟩, h.increasing, h.rows, fun _ => ?_,
      fun hclosed => by (cases hclosed)⟩
    show lastSequence start s.received = lastSequence start (s.received ++ s.wire)
    rw [h.wire hc, List.append_nil]

/-- **A client gets no event twice and none out of order**, on both buses, whatever they hand
    out, over any number of connections and wherever these break. -/
theorem received_once [DecidableEq δ]
    (hs : Steps (step kind type start maxsize) anything (initial start maxsize) s) :
    s.received.Pairwise (·.sequence < ·.sequence) ∧
      ∀ e ∈ s.received, e ∈ s.subscription.rows ∧ start < e.sequence := by
  have h : s.Ordered start := hs.keeps (I := Ordered start) .initial fun _ _ _ h _ hm => h.step hm
  exact ⟨(List.pairwise_append.1 h.increasing).1,
    fun e he => h.rows e (List.mem_append_left _ he)⟩

namespace Sample

def started : StreamEvent String := ⟨1, "run.started"⟩
def completed : StreamEvent String := ⟨2, "run.completed"⟩

/-- An event that the conversation bus yields out of its backlog and out of the queue. -/
def yieldedTwice : List (EventStreamStep String) :=
  [.connect [], .bus .register, .bus (.commit started true), .bus .read, .bus (.send 0),
    .bus .next, .bus .take, .handle, .handle, .receive]

end Sample

theorem received_once_sample : ∃ s,
    play (step .conversation id 0 1000) (initial 0 1000) Sample.yieldedTwice = some s ∧
      s.subscription.yielded = [Sample.started, Sample.started] ∧
      s.received.Pairwise (·.sequence < ·.sequence) := by
  have h : (play (step .conversation id 0 1000) (initial 0 1000) Sample.yieldedTwice).map
      (·.subscription.yielded) = some [Sample.started, Sample.started] := by decide +kernel
  obtain ⟨s, hs, hyielded⟩ := Option.map_eq_some_iff.1 h
  exact ⟨s, hs, hyielded, (received_once (steps_of_play (fun _ _ _ => trivial) hs)).1⟩

/-! ## The stream of a run -/

/-- No event is taken from a queue that is ahead of a durable one. -/
def InTurn (s : EventStream δ) (a : EventStreamStep δ) : Prop :=
  a = .bus .take → NoneAhead s.subscription

/-- The subscription of a connection, as far as its generator has gone through it. -/
structure Follows (s : EventStream δ) (header : Nat) : Prop where
  header_le : header ≤ s.delivered
  sane : Sane header s.subscription
  complete : Complete header s.subscription
  handled : s.handled ≤ s.subscription.yielded.length
  delivered : ∀ e ∈ s.subscription.yielded.take s.handled, e.sequence ≤ s.delivered

/-- Nothing is missing of what is received or on the way. -/
structure Whole (type : δ → String) (start : Nat) (s : EventStream δ) : Prop where
  gapless : Gapless s.subscription.rows start (s.received ++ s.wire)
  follows : s.connection ≠ .closed → ∃ header, s.Follows header
  returned : s.connection = .returned →
    ∃ e, (s.received ++ s.wire).getLast? = some e ∧ ReaderKind.ends .run type e = true

theorem Whole.initial : (initial start maxsize : EventStream δ).Whole type start where
  gapless r hr := by cases hr
  follows h := absurd rfl h
  returned h := by cases h

theorem Follows.bus {header : Nat} (h : s.Follows header) (hd : Durable s.subscription)
    {a : SubscriptionStep δ} (ha : a = .take → NoneAhead s.subscription) {σ : Subscription δ}
    (hσ : s.subscription.step .run a = some σ) : Follows { s with subscription := σ } header := by
  obtain ⟨t, ht⟩ := Subscription.step_yielded hσ
  refine ⟨h.header_le, h.sane.step hd hσ, h.complete.step hd h.sane ha hσ, ?_, ?_⟩
  · show s.handled ≤ σ.yielded.length
    rw [← ht, List.length_append]
    exact h.handled.trans (Nat.le_add_right _ _)
  · show ∀ e ∈ σ.yielded.take s.handled, e.sequence ≤ s.delivered
    rw [← ht, List.take_append_of_le_length h.handled]
    exact h.delivered

/-- The rows up to an event that the generator goes through are those before it, and it. -/
theorem Follows.next {header : Nat} (h : s.Follows header) {e r : StreamEvent δ}
    (he : s.subscription.yielded[s.handled]? = some e) (hr : r ∈ s.subscription.rows)
    (hlow : s.delivered < r.sequence) (hle : r.sequence ≤ e.sequence) : r = e := by
  have hcursor := (h.sane.yielded e (List.mem_of_getElem? he)).2.2
  have hyielded : r ∈ s.subscription.yielded :=
    h.complete r hr (h.header_le.trans_lt hlow) (hle.trans hcursor)
  obtain ⟨hlt, heq⟩ := List.getElem?_eq_some_iff.1 he
  rw [← List.take_append_drop s.handled s.subscription.yielded] at hyielded
  rcases List.mem_append.1 hyielded with hmem | hmem
  · have := h.delivered r hmem
    omega
  · rw [List.drop_eq_getElem_cons hlt, heq] at hmem
    rcases List.mem_cons.1 hmem with hmem | hmem
    · exact hmem
    · -- later events have larger numbers
      have hsorted := h.sane.sorted.sublist (List.drop_sublist s.handled _)
      rw [List.drop_eq_getElem_cons hlt, heq] at hsorted
      have := (List.pairwise_cons.1 hsorted).1 r hmem
      omega

theorem Follows.handle {header : Nat} (h : s.Follows header) {e : StreamEvent δ}
    (he : s.subscription.yielded[s.handled]? = some e) {delivered : Nat}
    (hle : s.delivered ≤ delivered) (hd : e.sequence ≤ delivered) {wire : List (StreamEvent δ)}
    {c : Connection} : Follows { s with
      handled := s.handled + 1
      delivered := delivered
      wire := wire
      connection := c } header := by
  obtain ⟨hlt, heq⟩ := List.getElem?_eq_some_iff.1 he
  refine ⟨h.header_le.trans hle, h.sane, h.complete, hlt, fun x hx => ?_⟩
  rw [List.take_succ_eq_append_getElem hlt] at hx
  rcases List.mem_append.1 hx with hx | hx
  · exact (h.delivered x hx).trans hle
  · rw [List.mem_singleton.1 hx, heq]
    exact hd

theorem Whole.step [DecidableEq δ] {a : EventStreamStep δ} (ho : s.Ordered start) (h : s.Whole type start)
    (ha : s.InTurn a) (hs : s.step .run type start maxsize a = some s') :
    s'.Whole type start := by
  cases a with
  | bus a =>
    obtain ⟨σ, hσ, rfl⟩ := step_bus hs
    refine ⟨h.gapless.grow (fun e he => (ho.rows e he).1) (Subscription.step_rows hσ)
      (ho.durable.step hσ).sorted, fun hc => ?_, h.returned⟩
    obtain ⟨header, hf⟩ := h.follows hc
    exact ⟨header, hf.bus ho.durable (fun htake => ha (htake ▸ rfl)) hσ⟩
  | handle =>
    obtain ⟨hc, e, he, rfl⟩ := step_handle hs
    have hopen : s.connection ≠ .closed := by rw [hc]; decide
    obtain ⟨header, hf⟩ := h.follows hopen
    rcases s.handle_cases .run type e with ⟨hle, heq⟩ | ⟨hlt, heq⟩
    · rw [heq]
      refine ⟨h.gapless, fun _ => ⟨header, hf.handle he le_rfl hle⟩, h.returned⟩
    · rw [heq]
      refine ⟨fun r hr hlow hle => ?_, fun _ => ⟨header, hf.handle he hlt.le le_rfl⟩, fun hr => ?_⟩
      · dsimp only at hr hle ⊢
        rw [← List.append_assoc] at hle ⊢
        rw [lastSequence_concat] at hle
        by_cases hold : r.sequence ≤ s.delivered
        · rw [ho.delivered hopen] at hold
          exact List.mem_append_left _ (h.gapless r hr hlow hold)
        · rw [hf.next he hr (not_le.1 hold) hle]
          exact List.mem_append_right _ (List.mem_singleton_self _)
      · refine ⟨e, by simp, ?_⟩
        by_contra hend
        rw [if_neg hend] at hr
        cases hr
  | receive =>
    obtain ⟨e, wire, hw, rfl⟩ := step_receive hs
    have hsame : (s.received ++ [e]) ++ wire = s.received ++ s.wire := by simp [hw]
    refine ⟨?_, fun hc => ?_, ?_⟩
    · rw [hsame]
      exact h.gapless
    · obtain ⟨header, hf⟩ := h.follows hc
      exact ⟨header, hf.header_le, hf.sane, hf.complete, hf.handled, hf.delivered⟩
    · rw [hsame]
      exact h.returned
  | disconnect =>
    obtain ⟨-, rfl⟩ := step_disconnect hs
    refine ⟨?_, fun hc => absurd rfl hc, fun hr => by (cases hr)⟩
    have hreceived : s.received ++ [] = s.received := List.append_nil _
    rw [disconnect, hreceived]
    exact h.gapless.left ho.increasing
  | connect sending =>
    obtain ⟨hc, -, rfl⟩ := step_connect hs
    refine ⟨h.gapless, fun _ => ⟨lastSequence start s.received, le_rfl, ?_, ?_, Nat.zero_le _, ?_⟩,
      fun hr => by (cases hr)⟩
    · exact ⟨List.Pairwise.nil, fun e he => by (cases he), .inl rfl, fun rest hp => by (cases hp),
        fun rest hp => by (cases hp)⟩
    · intro r hr hlow hle
      exact absurd hle (not_le.2 hlow)
    · intro e he
      cases he

/-- Nothing is left to hand on: a poll finds nothing, and nothing is on the way. -/
structure Settled (s : EventStream δ) : Prop where
  streaming : s.connection = .streaming
  polled : Stream.after s.subscription.rows s.subscription.cursor = []
  handled : s.handled = s.subscription.yielded.length
  wire : s.wire = []

theorem Whole.settled (ho : s.Ordered start) (h : s.Whole type start) (hs : s.Settled) :
    ∀ r ∈ s.subscription.rows, start < r.sequence → r ∈ s.received := by
  intro r hr hlow
  have hopen : s.connection ≠ .closed := by rw [hs.streaming]; decide
  obtain ⟨header, hf⟩ := h.follows hopen
  have hcursor : r.sequence ≤ s.subscription.cursor := by
    by_contra hlt
    have hmem := Subscription.mem_after.2 ⟨hr, not_le.1 hlt⟩
    rw [hs.polled] at hmem
    cases hmem
  have hle : r.sequence ≤ s.delivered := by
    by_cases hheader : r.sequence ≤ header
    · exact hheader.trans hf.header_le
    · refine hf.delivered r ?_
      rw [hs.handled, List.take_length]
      exact hf.complete r hr (not_le.1 hheader) hcursor
  rw [ho.delivered hopen] at hle
  have hmem := h.gapless r hr hlow hle
  rwa [hs.wire, List.append_nil] at hmem

/-- **A client gets the events of a run without a gap**, over any number of connections and
    wherever these break, if no event is taken from a queue that is ahead of a durable one. The
    server ends a response after a final event only; once nothing is left to hand on, the client
    has every event. -/
theorem received_gapless [DecidableEq δ]
    (hs : Steps (step .run type start maxsize) InTurn (initial start maxsize) s) :
    s.received <+: Stream.after s.subscription.rows start ∧
    (s.connection = .returned → s.wire = [] →
      ∃ e, s.received.getLast? = some e ∧ ReaderKind.ends .run type e = true) ∧
    (s.Settled → s.received = Stream.after s.subscription.rows start) := by
  obtain ⟨ho, hw⟩ : s.Ordered start ∧ s.Whole type start :=
    hs.keeps (I := fun s => s.Ordered start ∧ s.Whole type start) ⟨.initial, .initial⟩
      fun _ _ _ h ha hm => ⟨h.1.step hm, h.2.step h.1 ha hm⟩
  have hincreasing := (List.pairwise_append.1 ho.increasing).1
  have hmem : ∀ e ∈ s.received, e ∈ s.subscription.rows ∧ start < e.sequence :=
    fun e he => ho.rows e (List.mem_append_left _ he)
  have hinitial := (hw.gapless.left ho.increasing).isPrefix ho.durable.sorted hincreasing hmem
  refine ⟨hinitial, fun hr hnil => ?_, fun hsettled => ?_⟩
  · have hlast := hw.returned hr
    rwa [hnil, List.append_nil] at hlast
  · refine hinitial.eq_of_length_le ?_
    have hsub : Stream.after s.subscription.rows start ⊆ s.received := fun r hr => by
      obtain ⟨hrow, hlow⟩ := Subscription.mem_after.1 hr
      exact hw.settled ho hsettled r hrow hlow
    rw [Subscription.after_eq ho.durable.sorted] at hsub ⊢
    have hnodup : (s.subscription.rows.filter fun e => start < e.sequence).Nodup :=
      (ho.durable.sorted.filter _).imp fun hab heq => by rw [heq] at hab; exact lt_irrefl _ hab
    exact (hnodup.subperm hsub).length_le

namespace Sample

/-- The connection breaks before the run ends. -/
def brokenOff : List (EventStreamStep String) :=
  [.bus (.commit started false), .connect [], .bus .register, .bus .read, .bus .next, .handle,
    .receive, .disconnect, .bus (.commit completed false), .connect [], .bus .register, .bus .read,
    .bus .next, .handle, .receive]

end Sample

theorem received_gapless_sample : ∃ s,
    play (step .run id 0 1000) (initial 0 1000) Sample.brokenOff = some s ∧
      s.received <+: Stream.after [Sample.started, Sample.completed] 0 ∧
      ∃ e, s.received.getLast? = some e ∧ ReaderKind.ends .run id e = true := by
  have h : (play (step .run id 0 1000) (initial 0 1000) Sample.brokenOff).map
      (fun s => (s.subscription.rows, s.connection, s.wire)) =
        some ([Sample.started, Sample.completed], .returned, []) := by decide +kernel
  obtain ⟨s, hs, hstate⟩ := Option.map_eq_some_iff.1 h
  obtain ⟨hrows, hconnection, hwire⟩ : s.subscription.rows = [Sample.started, Sample.completed] ∧
      s.connection = .returned ∧ s.wire = [] := by simpa using hstate
  have hturn : ∀ a ∈ Sample.brokenOff, ∀ s : EventStream String, s.InTurn a := by
    intro a ha s htake
    subst htake
    simp [Sample.brokenOff] at ha
  obtain ⟨hinitial, hlast, -⟩ := received_gapless (steps_of_play hturn hs)
  exact ⟨s, hs, hrows ▸ hinitial, hlast hconnection hwire⟩

end EventStream

end TracciaRuntime
