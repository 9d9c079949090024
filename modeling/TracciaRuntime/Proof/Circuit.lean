/-
  Traccia Runtime formalization — the circuit breaker.

  * `Counted`: what the health of a provider knows of its invocations, by their suffixes
    (`Counted.enter`, `Counted.close`, `Counted.trip`, `Counted.reset`);
  * `Sound`: the calls and the health of a router (`step_sound`, `after_sound`);
  * `breaker_holds`: a provider with an open breaker is not invoked, in runs that meet `Allows`;
  * `breaker_passed`: two profiles of one provider in one call.
-/
import TracciaRuntime.Models.Circuit
import Mathlib.Data.List.Infix
import Mathlib.Tactic.Linarith

namespace TracciaRuntime

open Py

variable {V : Type}

/-! ## Invocations -/

namespace ProviderCall

def failed (providerId : String) (v : ProviderCall) : Bool :=
  v.providerId = providerId ∧ v.ended.any fun e => e.2 = .failed

/-- It has set the health of the provider back. -/
def recorded (providerId : String) (v : ProviderCall) : Bool :=
  v.providerId = providerId ∧ ¬ v.streamed ∧ v.ended.any fun e => e.2 = .ok

variable {v : ProviderCall} {providerId : String}

theorem failed_iff : v.failed providerId ↔
    v.providerId = providerId ∧ ∃ t, v.ended = some (t, .failed) := by
  simp [failed, Option.any_eq_true]

theorem failed_of_none (h : v.ended = none) : v.failed providerId = false := by
  simp [failed, h]

theorem recorded_of_none (h : v.ended = none) : v.recorded providerId = false := by
  simp [recorded, h]

end ProviderCall

theorem suffix_append_cons {α : Type} {S pre post : List α} {a : α}
    (h : S <:+ pre ++ a :: post) :
    S <:+ post ∨ ∃ pre', pre' <:+ pre ∧ S = pre' ++ a :: post := by
  induction pre with
  | nil =>
    rcases List.suffix_cons_iff.1 h with h | h
    · exact .inr ⟨[], List.nil_suffix, h⟩
    · exact .inl h
  | cons b pre ih =>
    rcases List.suffix_cons_iff.1 h with h | h
    · exact .inr ⟨b :: pre, List.suffix_rfl, h⟩
    · rcases ih h with h | ⟨pre', hpre, h⟩
      · exact .inl h
      · exact .inr ⟨pre', hpre.trans (List.suffix_cons b pre), h⟩

theorem suffix_filter {α : Type} {p : α → Bool} {l S : List α} (h : S <:+ l.filter p) :
    ∃ T, T <:+ l ∧ S = T.filter p := by
  induction l with
  | nil =>
    rw [List.filter_nil, List.suffix_nil] at h
    exact ⟨[], List.suffix_rfl, h⟩
  | cons a l ih =>
    by_cases ha : p a
    · rw [List.filter_cons_of_pos ha] at h
      rcases List.suffix_cons_iff.1 h with h | h
      · exact ⟨a :: l, List.suffix_rfl, by rw [h, List.filter_cons_of_pos ha]⟩
      · obtain ⟨T, hT, hS⟩ := ih h
        exact ⟨T, hT.trans (List.suffix_cons a l), hS⟩
    · rw [List.filter_cons_of_neg ha] at h
      obtain ⟨T, hT, hS⟩ := ih h
      exact ⟨T, hT.trans (List.suffix_cons a l), hS⟩

/-! ## What the health knows -/

/-- In a suffix of the invocations without a success there are no more failures than the health
    has counted; if these reach the threshold, the breaker has opened, and not before the last of
    them. -/
def Counted (R : ModelRouter) (h : ProviderHealth) (providerId : String) (l : List ProviderCall) :
    Prop :=
  ∀ S, S <:+ l → (∀ v ∈ S, v.recorded providerId = false) →
    S.countP (ProviderCall.failed providerId) ≤ h.consecutiveFailures ∧
    (R.circuitFailureThreshold ≤ S.countP (ProviderCall.failed providerId) →
      ∀ v ∈ S, v.failed providerId → ∃ o, h.openedAt = some o ∧ o ≠ 0 ∧
        ∀ t outcome, v.ended = some (t, outcome) → t ≤ o)

section
variable {R : ModelRouter} {h : ProviderHealth} {providerId : String} {pre post : List ProviderCall}
  {v v' : ProviderCall}

theorem Counted.nil : Counted R h providerId [] := by
  intro S hS _
  rw [List.suffix_nil.1 hS]
  exact ⟨Nat.zero_le _, fun _ v hv => by cases hv⟩

theorem Counted.enter {l : List ProviderCall} (hc : Counted R h providerId l) (hv : v.ended = none) :
    Counted R h providerId (l ++ [v]) := by
  intro S hS hrec
  rcases suffix_append_cons hS with hS | ⟨pre, hpre, rfl⟩
  · rw [List.suffix_nil.1 hS]
    exact ⟨Nat.zero_le _, fun _ v hv => by cases hv⟩
  · have hcount : (pre ++ [v]).countP (ProviderCall.failed providerId) =
        pre.countP (ProviderCall.failed providerId) := by
      rw [List.countP_append, List.countP_singleton, ProviderCall.failed_of_none hv]
      rfl
    obtain ⟨hle, hopen⟩ := hc pre hpre fun w hw => hrec w (List.mem_append_left _ hw)
    rw [hcount]
    refine ⟨hle, fun ht w hw hf => ?_⟩
    rcases List.mem_append.1 hw with hw | hw
    · exact hopen ht w hw hf
    · rw [List.mem_singleton.1 hw, ProviderCall.failed_of_none hv] at hf
      cases hf

/-- An end that the health says nothing about. -/
theorem Counted.close (hc : Counted R h providerId (pre ++ v :: post)) (hv : v.ended = none)
    (hfailed : v'.failed providerId = false) :
    Counted R h providerId (pre ++ v' :: post) := by
  intro S hS hrec
  rcases suffix_append_cons hS with hS | ⟨pre', hpre, rfl⟩
  · exact hc S (hS.trans ((List.suffix_cons v post).trans (List.suffix_append pre _))) hrec
  · have hsuffix : pre' ++ v :: post <:+ pre ++ v :: post := by
      obtain ⟨r, rfl⟩ := hpre
      exact ⟨r, by simp⟩
    obtain ⟨hle, hopen⟩ := hc _ hsuffix fun w hw => by
      rcases List.mem_append.1 hw with hw | hw
      · exact hrec w (List.mem_append_left _ hw)
      · rcases List.mem_cons.1 hw with rfl | hw
        · exact ProviderCall.recorded_of_none hv
        · exact hrec w (List.mem_append_right _ (List.mem_cons_of_mem _ hw))
    have hcount : (pre' ++ v' :: post).countP (ProviderCall.failed providerId) =
        (pre' ++ v :: post).countP (ProviderCall.failed providerId) := by
      simp only [List.countP_append, List.countP_cons, hfailed, ProviderCall.failed_of_none hv]
    rw [hcount]
    refine ⟨hle, fun ht w hw hf => ?_⟩
    refine hopen ht w ?_ hf
    rcases List.mem_append.1 hw with hw | hw
    · exact List.mem_append_left _ hw
    · rcases List.mem_cons.1 hw with rfl | hw
      · rw [hfailed] at hf
        cases hf
      · exact List.mem_append_right _ (List.mem_cons_of_mem _ hw)

/-- A failure that the health counts. -/
theorem Counted.trip {now : Time} (hc : Counted R h providerId (pre ++ v :: post))
    (hv : v.ended = none) (hended : ∀ w ∈ pre ++ v' :: post, ∀ t o, w.ended = some (t, o) → t ≤ now)
    (hnow : R.circuitFailureThreshold ≤ (h.consecutiveFailures + 1 : Nat) → now ≠ 0) :
    Counted R (R.trip h now) providerId (pre ++ v' :: post) := by
  intro S hS hrec
  have hle : S.countP (ProviderCall.failed providerId) ≤ h.consecutiveFailures + 1 := by
    rcases suffix_append_cons hS with hS | ⟨pre', hpre, rfl⟩
    · exact (hc S (hS.trans ((List.suffix_cons v post).trans (List.suffix_append pre _)))
        hrec).1.trans (Nat.le_succ _)
    · have hsuffix : pre' ++ v :: post <:+ pre ++ v :: post := by
        obtain ⟨r, rfl⟩ := hpre
        exact ⟨r, by simp⟩
      have hcount := (hc _ hsuffix fun w hw => by
        rcases List.mem_append.1 hw with hw | hw
        · exact hrec w (List.mem_append_left _ hw)
        · rcases List.mem_cons.1 hw with rfl | hw
          · exact ProviderCall.recorded_of_none hv
          · exact hrec w (List.mem_append_right _ (List.mem_cons_of_mem _ hw))).1
      simp only [List.countP_append, List.countP_cons] at hcount ⊢
      split <;> omega
  refine ⟨hle, fun ht w hw hf => ?_⟩
  have hopens : R.circuitFailureThreshold ≤ (h.consecutiveFailures + 1 : Nat) := by omega
  refine ⟨now, by rw [ModelRouter.trip, if_pos hopens], hnow hopens, fun t o hto => ?_⟩
  exact hended w (hS.subset hw) t o hto

/-- A success sets the health back; no later invocation has failed. -/
theorem Counted.reset {latencyMs : ℚ} (hrecorded : v'.recorded providerId)
    (hpost : ∀ w ∈ post, w.failed providerId = false) :
    Counted R { latencyMs := latencyMs } providerId (pre ++ v' :: post) := by
  intro S hS hrec
  rcases suffix_append_cons hS with hS | ⟨pre', -, rfl⟩
  · have hcount : S.countP (ProviderCall.failed providerId) = 0 := by
      rw [List.countP_eq_zero]
      exact fun w hw => by simp [hpost w (hS.subset hw)]
    refine ⟨hcount.le, fun _ w hw hf => ?_⟩
    rw [hpost w (hS.subset hw)] at hf
    cases hf
  · have := hrec v' (by simp)
    rw [hrecorded] at this
    cases this

end

/-! ## The ranking -/

/-- The breaker was closed when the ranking looked at the profile. -/
def Seen.Passed (R : ModelRouter) (clock : Time) (x : Seen V) : Prop :=
  R.isOpen x.openedAt x.now = false ∧ x.now ≤ clock

namespace RouterPhase

/-- The profiles that a call may come back to. -/
def seen : RouterPhase V → List (Seen V)
  | asking x _ ranked => x :: ranked.map Ranked.toSeen
  | choosing c => [c.toSeen]
  | waiting c rest | invoked _ c rest => c.toSeen :: rest.map Ranked.toSeen
  | done => []

def idle : RouterPhase V → Bool
  | invoked .. => false
  | _ => true

@[simp] theorem idle_next (rest : List (Ranked V)) : (next rest).idle := by
  cases rest <;> rfl

theorem seen_next (rest : List (Ranked V)) : (next rest).seen = rest.map Ranked.toSeen := by
  cases rest <;> rfl

end RouterPhase

namespace ModelRouter
variable {R : ModelRouter} {health : String → ProviderHealth} {now clock : Time}
  {streams : Bool} {allowlist : Finset String} {profile : ModelProfile V} {providerId : String}

theorem considers_closed (h : R.considers health now allowlist profile = some providerId) :
    R.isOpen (health providerId).openedAt now = false := by
  unfold considers at h
  split at h
  · split_ifs at h with _ _ hopen
    cases h
    exact Bool.eq_false_iff.2 hopen
  · cases h

theorem choose_idle (ranked : List (Ranked V)) : (choose streams ranked).idle := by
  unfold choose
  split
  · rfl
  · split <;> rfl

theorem choose_seen {ranked : List (Ranked V)} {x : Seen V} (hx : x ∈ (choose streams ranked).seen) :
    x ∈ ranked.map Ranked.toSeen := by
  unfold choose at hx
  split at hx
  · cases hx
  · rename_i c rest hsort
    have hperm := List.perm_insertionSort (fun a b : Ranked V => b.score ≤ a.score) ranked
    rw [hsort] at hperm
    refine (hperm.map Ranked.toSeen).subset ?_
    split at hx
    · rw [List.mem_singleton.1 hx]
      exact List.mem_cons_self
    · exact hx

theorem look_idle (ranked : List (Ranked V)) (profiles : List (ModelProfile V)) :
    (R.look health now streams allowlist ranked profiles).idle := by
  induction profiles with
  | nil => exact choose_idle ranked
  | cons profile rest ih =>
    unfold look
    split
    · rfl
    · exact ih

/-- What the loop looks at has a closed breaker. -/
theorem look_seen {ranked : List (Ranked V)} (hranked : ∀ c ∈ ranked, c.toSeen.Passed R clock)
    (hnow : now ≤ clock) (profiles : List (ModelProfile V)) :
    ∀ x ∈ (R.look health now streams allowlist ranked profiles).seen, x.Passed R clock := by
  have hmap : ∀ x ∈ ranked.map Ranked.toSeen, x.Passed R clock := fun x hx => by
    obtain ⟨c, hc, rfl⟩ := List.mem_map.1 hx
    exact hranked c hc
  induction profiles with
  | nil => exact fun x hx => hmap x (choose_seen hx)
  | cons profile rest ih =>
    unfold look
    split
    · rename_i providerId h
      exact List.forall_mem_cons.2 ⟨⟨considers_closed h, hnow⟩, hmap⟩
    · exact ih

end ModelRouter

/-! ## The calls -/

namespace Routing
variable {R : ModelRouter} {s : Routing V} {i k : Nat} {c : Ranked V} {call : RouterCall V}
  {rest : List (Ranked V)} {phase : RouterPhase V}

structure Sound (R : ModelRouter) (s : Routing V) : Prop where
  seen : ∀ (i : Nat) (call : RouterCall V), s.calls[i]? = some call →
    ∀ x ∈ call.phase.seen, x.Passed R s.clock
  flight : ∀ (i : Nat) (call : RouterCall V) k c rest, s.calls[i]? = some call →
    call.phase = .invoked k c rest → ∃ v, s.invocations[k]? = some v ∧ v.call = i ∧
      v.providerId = c.providerId ∧ v.streamed = call.streams ∧ v.ended = none
  ended : ∀ v ∈ s.invocations, ∀ t o, v.ended = some (t, o) → t ≤ s.clock
  counted : ∀ providerId, Counted R (s.health providerId) providerId s.invocations

theorem Sound.init (start : Time) : Sound R ({ clock := start } : Routing V) := by
  refine ⟨fun i call hi => ?_, fun i call k c rest hi => ?_, fun v hv => ?_, fun _ => .nil⟩
  · rw [List.getElem?_nil] at hi
    cases hi
  · rw [List.getElem?_nil] at hi
    cases hi
  · cases hv

theorem Sound.wait (h : Sound R s) (elapsed : ℚ≥0) : Sound R (s.wait elapsed) := by
  have hle : s.clock ≤ s.clock + elapsed := le_add_of_nonneg_right elapsed.2
  exact ⟨fun i call hi x hx => ⟨(h.seen i call hi x hx).1, (h.seen i call hi x hx).2.trans hle⟩,
    h.flight, fun v hv t o hto => (h.ended v hv t o hto).trans hle, h.counted⟩

theorem put_get {j : Nat} (hj : (s.put i phase).calls[j]? = some call) :
    (i ≠ j ∧ s.calls[j]? = some call) ∨
      ∃ old, i = j ∧ s.calls[i]? = some old ∧ call = { old with phase } := by
  simp only [put, List.getElem?_modify] at hj
  obtain ⟨old, hold, rfl⟩ := Option.map_eq_some_iff.1 hj
  by_cases hij : i = j
  · subst hij
    exact .inr ⟨old, rfl, hold, by simp⟩
  · exact .inl ⟨hij, by simpa [hij] using hold⟩

/-- A call awaits something else than its provider. -/
theorem Sound.put (h : Sound R s) (hseen : ∀ x ∈ phase.seen, x.Passed R s.clock)
    (hidle : phase.idle) : Sound R (s.put i phase) := by
  refine ⟨fun j call hj x hx => ?_, fun j call k c rest hj hphase => ?_, h.ended, h.counted⟩
  · rcases put_get hj with ⟨-, hj⟩ | ⟨old, -, -, rfl⟩
    · exact h.seen j call hj x hx
    · exact hseen x hx
  · rcases put_get hj with ⟨-, hj⟩ | ⟨old, -, -, rfl⟩
    · exact h.flight j call k c rest hj hphase
    · cases hphase
      cases hidle

/-- The rate limiter lets a call through. -/
theorem Sound.acquire (h : Sound R s) (hi : s.calls[i]? = some call)
    (hphase : call.phase = .waiting c rest) :
    Sound R ((s.enter ⟨i, c.providerId, call.streams, s.clock, none⟩).put i
      (.invoked s.invocations.length c rest)) := by
  refine ⟨fun j call' hj x hx => ?_, fun j call' k c' rest' hj hphase' => ?_, ?_, fun P =>
    (h.counted P).enter rfl⟩
  · rcases put_get hj with ⟨-, hj⟩ | ⟨old, -, -, rfl⟩
    · exact h.seen j call' hj x hx
    · exact h.seen i call hi x (by rwa [hphase])
  · rcases put_get hj with ⟨-, hj⟩ | ⟨old, rfl, hold, rfl⟩
    · obtain ⟨v, hv, hrest⟩ := h.flight j call' k c' rest' hj hphase'
      refine ⟨v, ?_, hrest⟩
      exact (List.getElem?_append_left (List.getElem?_eq_some_iff.1 hv).1).trans hv
    · change s.calls[i]? = some old at hold
      rw [hi] at hold
      cases hold
      cases hphase'
      exact ⟨_, List.getElem?_concat_length, rfl, rfl, rfl, rfl⟩
  · intro v hv t o hto
    rcases List.mem_append.1 hv with hv | hv
    · exact h.ended v hv t o hto
    · rw [List.mem_singleton.1 hv] at hto
      cases hto

/-- The list of invocations around the one that ends. -/
theorem Sound.split (h : Sound R s) (hi : s.calls[i]? = some call)
    (hphase : call.phase = .invoked k c rest) (outcome : CallOutcome) : ∃ pre v post,
    s.invocations = pre ++ v :: post ∧ pre.length = k ∧ v.call = i ∧
      v.providerId = c.providerId ∧ v.streamed = call.streams ∧ v.ended = none ∧
      (s.close k outcome).invocations =
        pre ++ { v with ended := some (s.clock, outcome) } :: post := by
  obtain ⟨v, hv, hcall, hprovider, hstreamed, hended⟩ := h.flight i call k c rest hi hphase
  obtain ⟨hlt, hget⟩ := List.getElem?_eq_some_iff.1 hv
  refine ⟨s.invocations.take k, v, s.invocations.drop (k + 1), ?_, ?_, hcall, hprovider,
    hstreamed, hended, ?_⟩
  · rw [← hget]
    simp
  · exact List.length_take_of_le hlt.le
  · rw [close, List.modify_eq_take_cons_drop hlt, hget]

/-- An invocation ends, and the call goes on. -/
theorem Sound.finish (h : Sound R s) (hi : s.calls[i]? = some call)
    (hphase : call.phase = .invoked k c rest) {outcome : CallOutcome}
    (health : String → ProviderHealth)
    (hcounted : ∀ P, Counted R (health P) P (s.close k outcome).invocations)
    (hseen : ∀ x ∈ phase.seen, x.Passed R s.clock) (hidle : phase.idle) :
    Sound R ({ s.close k outcome with health }.put i phase) := by
  obtain ⟨pre, v, post, hl, hk, hcall, -, -, -, hl'⟩ := h.split hi hphase outcome
  refine ⟨fun j call' hj x hx => ?_, fun j call' k' c' rest' hj hphase' => ?_, ?_, hcounted⟩
  · rcases put_get hj with ⟨-, hj⟩ | ⟨old, -, -, rfl⟩
    · exact h.seen j call' hj x hx
    · exact hseen x hx
  · rcases put_get hj with ⟨hne, hj⟩ | ⟨old, -, -, rfl⟩
    · obtain ⟨w, hw, hrest⟩ := h.flight j call' k' c' rest' hj hphase'
      refine ⟨w, ?_, hrest⟩
      have hk' : k ≠ k' := by
        rintro rfl
        rw [hl, ← hk] at hw
        have hwv : v = w := by simpa using hw
        exact hne (by rw [← hcall, hwv, hrest.1])
      simp only [Routing.put, close, List.getElem?_modify, hw, hk', if_false]
      rfl
    · cases hphase'
      cases hidle
  · intro w hw t o hto
    change w ∈ (s.close k outcome).invocations at hw
    rw [hl'] at hw
    rcases List.mem_append.1 hw with hw | hw
    · exact h.ended w (by rw [hl]; exact List.mem_append_left _ hw) t o hto
    · rcases List.mem_cons.1 hw with rfl | hw
      · cases hto
        exact le_rfl
      · exact h.ended w (by rw [hl]; exact List.mem_append_right _ (List.mem_cons_of_mem _ hw))
          t o hto

/-- What keeps the breaker sound: a call goes to its next candidate while `opened_at` is as the
    ranking has seen it, or the breaker is closed; a stream does not fail; the breaker does not
    open at the time `0.0`; and no success comes in after a later invocation has failed. -/
def Allows (R : ModelRouter) (s : Routing V) : RouterAct V → Prop
  | .acquire i => ∀ (call : RouterCall V) c rest, s.calls[i]? = some call →
      call.phase = .waiting c rest → (s.health c.providerId).openedAt = c.openedAt ∨
        R.isOpen (s.health c.providerId).openedAt s.clock = false
  | .finish i .ok => ∀ (call : RouterCall V) k c rest, s.calls[i]? = some call →
      call.phase = .invoked k c rest → call.streams = false →
        ∀ v ∈ s.invocations.drop (k + 1), v.failed c.providerId = false
  | .finish i .failed => ∀ (call : RouterCall V) k c rest, s.calls[i]? = some call →
      call.phase = .invoked k c rest → call.streams = false ∧
        (R.circuitFailureThreshold ≤ ((s.health c.providerId).consecutiveFailures + 1 : Nat) →
          s.clock ≠ 0)
  | _ => True

theorem Sound.record (h : Sound R s) (hi : s.calls[i]? = some call)
    (hphase : call.phase = .invoked k c rest) {outcome : CallOutcome}
    (ha : Allows R s (.finish i outcome)) :
    Sound R ((s.close k outcome).record R i k call.streams c rest outcome) := by
  obtain ⟨pre, v, post, hl, hk, -, hprovider, hstreamed, hended, hl'⟩ := h.split hi hphase outcome
  have hcounted : ∀ P, Counted R (s.health P) P (pre ++ v :: post) := fun P => hl ▸ h.counted P
  have hkeeps : ∀ P, outcome ≠ .failed ∨ c.providerId ≠ P →
      Counted R (s.health P) P (s.close k outcome).invocations := fun P hP => by
    rw [hl']
    refine (hcounted P).close hended (Bool.eq_false_iff.2 fun hf => ?_)
    obtain ⟨hid, t, ht⟩ := ProviderCall.failed_iff.1 hf
    cases ht
    rcases hP with hP | hP
    · exact hP rfl
    · exact hP (hprovider.symm.trans hid)
  have hdone : ∀ x ∈ (RouterPhase.done : RouterPhase V).seen, x.Passed R s.clock :=
    List.forall_mem_nil _
  unfold Routing.record
  split
  · rename_i hs
    refine h.finish hi hphase s.health (fun P => hkeeps P (.inl ?_)) hdone rfl
    rintro rfl
    rw [(ha call k c rest hi hphase).1] at hs
    cases hs
  · rename_i hs
    have hs : call.streams = false := Bool.eq_false_iff.2 hs
    cases outcome with
    | ok =>
      refine h.finish hi hphase (Function.update s.health c.providerId
        { latencyMs := (s.close k .ok).latencyMs k }) (fun P => ?_) hdone rfl
      by_cases hP : P = c.providerId
      · subst hP
        rw [hl', Function.update_self]
        refine Counted.reset ?_ ?_
        · simp [ProviderCall.recorded, hprovider, hstreamed, hs]
        · have hpost := ha call k c rest hi hphase hs
          rw [hl, ← hk] at hpost
          simpa using hpost
      · rw [Function.update_of_ne hP]
        exact hkeeps P (.inl nofun)
    | failed =>
      refine h.finish hi hphase (Function.update s.health c.providerId
        (R.trip (s.health c.providerId) s.clock)) (fun P => ?_) ?_ (RouterPhase.idle_next rest)
      · by_cases hP : P = c.providerId
        · subst hP
          rw [Function.update_self, hl']
          refine (hcounted _).trip hended (fun w hw t o hto => ?_) (ha call k c rest hi hphase).2
          rcases List.mem_append.1 hw with hw | hw
          · exact h.ended w (by rw [hl]; exact List.mem_append_left _ hw) t o hto
          · rcases List.mem_cons.1 hw with rfl | hw
            · cases hto
              exact le_rfl
            · exact h.ended w
                (by rw [hl]; exact List.mem_append_right _ (List.mem_cons_of_mem _ hw)) t o hto
        · rw [Function.update_of_ne hP]
          exact hkeeps P (.inr fun he => hP he.symm)
      · rw [RouterPhase.seen_next]
        intro x hx
        refine h.seen i call hi x ?_
        rw [hphase]
        exact List.mem_cons_of_mem _ hx
    | raised => exact h.finish hi hphase s.health (fun P => hkeeps P (.inl nofun)) hdone rfl

/-- **One step.** -/
theorem step_sound {a : RouterAct V} (h : Sound R s) (ha : Allows R s a) :
    Sound R (s.step R a) := by
  have hdone : ∀ x ∈ (RouterPhase.done : RouterPhase V).seen, x.Passed R s.clock :=
    List.forall_mem_nil _
  cases a with
  | call streams profiles allowlist =>
    refine ⟨fun j call hj x hx => ?_, fun j call k c rest hj hphase => ?_, h.ended, h.counted⟩
    · rcases List.mem_append.1 (List.mem_of_getElem? hj) with hc | hc
      · obtain ⟨j', hj'⟩ := List.getElem?_of_mem hc
        exact h.seen j' call hj' x hx
      · rw [List.mem_singleton.1 hc] at hx
        exact ModelRouter.look_seen (List.forall_mem_nil _) le_rfl profiles x hx
    · change (s.calls ++ [_])[j]? = _ at hj
      rw [List.getElem?_append] at hj
      split at hj
      · exact h.flight j call k c rest hj hphase
      · have hc := List.mem_singleton.1 (List.mem_of_getElem? hj)
        have hidle : (R.look s.health s.clock streams allowlist [] profiles).idle :=
          ModelRouter.look_idle [] profiles
        rw [hc] at hphase
        dsimp only at hphase
        rw [hphase] at hidle
        cases hidle
  | answer i capabilities =>
    unfold step
    dsimp only
    split
    · rename_i streams allowlist x rest ranked capabilities hi
      have hseen := h.seen i _ hi
      have hranked : ∀ c ∈ ranked, c.toSeen.Passed R s.clock := fun c hc =>
        hseen _ (List.mem_cons_of_mem _ (List.mem_map_of_mem hc))
      have hx := hseen x List.mem_cons_self
      refine h.put (ModelRouter.look_seen ?_ hx.2 rest) (ModelRouter.look_idle _ _)
      split
      · intro c hc
        rcases List.mem_append.1 hc with hc | hc
        · exact hranked c hc
        · rw [List.mem_singleton.1 hc]
          exact hx
      · exact hranked
    · rename_i streams allowlist c capabilities hi
      refine h.put ?_ ?_
      · split
        · exact h.seen i _ hi
        · exact hdone
      · split <;> rfl
    · exact h.put hdone rfl
    · exact h.put hdone rfl
    · exact h
  | acquire i =>
    unfold step
    dsimp only
    split
    · rename_i streams allowlist c rest hi
      exact h.acquire hi rfl
    · exact h
  | finish i outcome =>
    unfold step
    dsimp only
    split
    · rename_i streams allowlist k c rest hi
      exact h.record hi rfl ha
    · exact h
  | abort i =>
    unfold step
    dsimp only
    split
    · exact h
    · exact h.put hdone rfl

theorem after_sound {start : Time} {acts : List (ℚ≥0 × RouterAct V)}
    (hallows : ∀ x past, (x :: past) <:+ acts → Allows R ((after R start past).wait x.1) x.2) :
    Sound R (after R start acts) := by
  induction acts with
  | nil => exact .init start
  | cons x acts ih =>
    have hs := ih fun y past hy => hallows y past (hy.trans (List.suffix_cons x acts))
    exact step_sound (hs.wait x.1) (hallows x acts List.suffix_rfl)

/-- A sound router that trips has an open breaker. -/
theorem Sound.tripped (h : Sound R s) {providerId : String} {now : Time}
    (ht : Tripped R s providerId now) : R.isOpen (s.health providerId).openedAt now := by
  obtain ⟨last, hlast, hlength, hfailed, v, hv, t, hvt, hrecent⟩ := ht
  obtain ⟨S, hS, rfl⟩ := suffix_filter hlast
  have hof : ∀ w ∈ S, w.providerId = providerId →
      w.failed providerId = true ∧ w.recorded providerId = false := fun w hw hid => by
    obtain ⟨t', ht'⟩ := hfailed w (List.mem_filter.2 ⟨hw, decide_eq_true hid⟩)
    exact ⟨ProviderCall.failed_iff.2 ⟨hid, t', ht'⟩, by simp [ProviderCall.recorded, ht']⟩
  have hcount : S.countP (ProviderCall.failed providerId) =
      (S.filter fun w => w.providerId = providerId).length := by
    rw [List.countP_eq_length_filter]
    refine congrArg List.length (List.filter_congr fun w hw => ?_)
    by_cases hid : w.providerId = providerId
    · rw [(hof w hw hid).1, decide_eq_true hid]
    · simp [ProviderCall.failed, hid]
  obtain ⟨-, hopen⟩ := h.counted providerId S hS fun w hw => by
    by_cases hid : w.providerId = providerId
    · exact (hof w hw hid).2
    · simp [ProviderCall.recorded, hid]
  obtain ⟨hvS, hvid⟩ := List.mem_filter.1 hv
  obtain ⟨o, ho, hne, hle⟩ := hopen (by omega) v hvS (hof v hvS (of_decide_eq_true hvid)).1
  have := hle t _ hvt
  rw [ModelRouter.isOpen, ho, Option.any_some, decide_eq_true_iff]
  exact ⟨hne, by linarith⟩

/-- A provider that has tripped is not invoked, in every run whose steps are allowed. -/
theorem breaker_holds (start : Time) (acts : List (ℚ≥0 × RouterAct V))
    (hallows : ∀ x past, (x :: past) <:+ acts → Allows R ((after R start past).wait x.1) x.2) :
    ∀ x past, (x :: past) <:+ acts → ∀ providerId now,
      begins ((after R start past).wait x.1) x.2 = some (providerId, now) →
        ¬ Tripped R ((after R start past).wait x.1) providerId now := by
  intro x past hx providerId now hbegins htripped
  have hsound : Sound R ((after R start past).wait x.1) :=
    (after_sound fun y past' hy =>
      hallows y past' (hy.trans ((List.suffix_cons x past).trans hx))).wait x.1
  have hallow := hallows x past hx
  revert hbegins htripped hsound hallow
  generalize (after R start past).wait x.1 = s
  intro hbegins htripped hsound hallow
  unfold begins at hbegins
  split at hbegins
  · rename_i i hact
    split at hbegins
    · rename_i streams allowlist c rest hi
      cases hbegins
      have hopen := hsound.tripped htripped
      obtain ⟨hclosed, hnow⟩ := hsound.seen i _ hi c.toSeen List.mem_cons_self
      rw [hact] at hallow
      rcases hallow _ c rest hi rfl with hsame | hfalse
      · -- the breaker was closed for the same `opened_at`, and it is later now
        rw [hsame] at hopen
        obtain ⟨o, ho, hne⟩ := Option.any_eq_true _ _ |>.1 hopen
        obtain ⟨hne, hlt⟩ := of_decide_eq_true hne
        rw [ModelRouter.isOpen, ho, Option.any_some, decide_eq_false_iff_not] at hclosed
        exact hclosed ⟨hne, by linarith⟩
      · rw [hfalse] at hopen
        cases hopen
    · cases hbegins
  · cases hbegins

namespace Sample

/-- One failure opens the breaker. -/
def router : ModelRouter := { circuitFailureThreshold := 1, providers := [("p", {})] }

def profile (model : String) : ModelProfile Unit :=
  { name := model, provider := some "p", model := some model }

/-- A call whose provider fails. -/
def failing : List (ℚ≥0 × RouterAct Unit) :=
  [(0, .finish 0 .failed), (0, .acquire 0), (0, .answer 0 (some {"chat"})),
    (0, .call false [profile "m"] ∅)]

/-- A call with two profiles of one provider. -/
def twice : List (ℚ≥0 × RouterAct Unit) :=
  [(0, .finish 0 .failed), (0, .acquire 0), (0, .answer 0 (some {"chat"})),
    (0, .answer 0 (some {"chat"})), (0, .call false [profile "m", profile "n"] ∅)]

end Sample

theorem breaker_holds_sample :
    ¬ Tripped Sample.router ((after Sample.router 1 (Sample.failing.drop 2)).wait 0) "p" 1 := by
  refine breaker_holds 1 Sample.failing (fun x past hx => ?_) (0, .acquire 0)
    (Sample.failing.drop 2) (List.suffix_cons _ _) "p" 1 (by decide +kernel)
  rcases List.suffix_cons_iff.1 hx with he | hx
  · cases he
    intro call k c rest hi _
    have hstreams : (((after Sample.router 1 (Sample.failing.drop 1)).wait 0).calls[0]?.map
        fun call => call.streams) = some false := by decide +kernel
    rw [Option.map_eq_some_iff] at hstreams
    obtain ⟨call', hcall', hs⟩ := hstreams
    cases hi.symm.trans hcall'
    have hclock : ((after Sample.router 1 (Sample.failing.drop 1)).wait 0).clock ≠ 0 := by
      decide +kernel
    exact ⟨hs, fun _ => hclock⟩
  · rcases List.suffix_cons_iff.1 hx with he | hx
    · cases he
      have hhealth : ((after Sample.router 1 (Sample.failing.drop 2)).wait 0).health =
          fun _ => {} := rfl
      intro call c rest _ _
      exact .inr (congrArg (fun h : String → ProviderHealth =>
        Sample.router.isOpen (h c.providerId).openedAt _) hhealth)
    · rcases List.suffix_cons_iff.1 hx with he | hx
      · cases he
        trivial
      · rcases List.suffix_cons_iff.1 hx with he | hx
        · cases he
          trivial
        · exact absurd (List.suffix_nil.1 hx) (List.cons_ne_nil _ _)

/-- The second profile is asked right after the failure of the first one. -/
theorem breaker_passed : ¬ ∀ (R : ModelRouter) (start : Time)
    (acts : List (ℚ≥0 × RouterAct Unit)) (x : ℚ≥0 × RouterAct Unit) (past), (x :: past) <:+ acts →
    ∀ providerId now, begins ((after R start past).wait x.1) x.2 = some (providerId, now) →
      ¬ Tripped R ((after R start past).wait x.1) providerId now := by
  intro h
  refine h Sample.router 1 ((0, .acquire 0) :: Sample.twice) (0, .acquire 0) Sample.twice
    List.suffix_rfl "p" 1 (by decide +kernel) ?_
  have hinv : (after Sample.router 1 Sample.twice).invocations =
      [⟨0, "p", false, 1, some (1, .failed)⟩] := by decide +kernel
  refine ⟨[⟨0, "p", false, 1, some (1, .failed)⟩], ?_, rfl, ?_, ?_⟩
  · change _ <:+ List.filter _ (after Sample.router 1 Sample.twice).invocations
    rw [hinv]
    exact List.suffix_rfl
  · exact List.forall_mem_singleton.2 ⟨1, rfl⟩
  · exact ⟨_, List.mem_singleton_self _, 1, rfl, by decide +kernel⟩

end Routing

end TracciaRuntime
