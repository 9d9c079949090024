/-
  The output cap of the model requests.

  A driver knows of the tokens with which it has read its run, and of those that it has received
  since.  It computes the cap of a model step from them, and computes it again only after a
  completion that was cut off.

  * `CapFits`: the cap of a request leaves the budget of the tokens known of;
  * `MayRetry`: what another attempt takes;
  * `Brought`, `FailedAttempt`, `ReadyToAsk`: the course of an attempt;
  * `drive_asks`: what a driver asks for;
  * `output_capped`.
-/
import TracciaRuntime.Proof.Conduct
import TracciaRuntime.Proof.Courses

namespace TracciaRuntime

open Py Async Prog AgentRuntime

variable {V : Type}

/-! ## What a driver has received -/

/-- The model request of an await. -/
def Op.asks : Op V → Option (ModelRequest V)
  | generate request .. | streamOpen request .. => some request
  | _ => none

/-- The response that an answer brings. -/
def Op.brings : (o : Op V) → Except Exn o.Resp → Option (ModelResponse V)
  | generate .., .ok response => some response
  | streamNext, .ok event => event.response
  | _, _ => none

/-- The tokens of a response, if there is one. -/
def tokensOf (response : Option (ModelResponse V)) : Int :=
  response.elim 0 fun r => r.usage.totalTokens

/-- The tokens of the responses in a past. -/
def received : Awaits V → Int
  | [] => 0
  | a :: h => tokensOf (a.1.brings a.2) + received h

/-- The last attempt of a model step. -/
structure ModelAttempt (V : Type) where
  request : ModelRequest V
  /-- a response has come -/
  answered : Bool := false
  /-- a `ProviderError` has come after it -/
  broken : Bool := false
  /-- the limit has been raised -/
  raised : Bool := false

def Exn.isProvider : Exn → Bool
  | provider .. => true
  | _ => false

/-- An await failed with a `ProviderError`. -/
def isProviderError {α : Type} : Except Exn α → Bool
  | .ok _ => false
  | .error e => e.isProvider

/-- The audit entry of a raised limit. -/
def Op.raisesLimit : Op V → Bool
  | auditAppend e => e.action = "model.output_limit_recovery"
  | _ => false

/-- The event at the start of a model step. -/
def Op.startsModel : Op V → Bool
  | publish e => match e.body with
    | .modelStarted => true
    | _ => false
  | _ => false

/-- The attempt after an await. -/
def ModelAttempt.see (a : ModelAttempt V) (o : Op V) (r : Except Exn o.Resp) : ModelAttempt V :=
  { a with
    answered := a.answered || (o.brings r).isSome
    broken := a.broken || (a.answered && isProviderError r)
    raised := a.raised || o.raisesLimit }

/-- The last attempt of the model step that is under way. -/
def lastAttempt : Awaits V → Option (ModelAttempt V)
  | [] => none
  | ⟨o, r⟩ :: h => match o.asks with
    | some request => some (ModelAttempt.see { request } o r)
    | none => if o.startsModel then none else (lastAttempt h).map fun a => a.see o r

/-- The policies have left the cap of every model request as it was. -/
def CapsKept (h : Awaits V) : Prop :=
  ∀ request context decision changed,
    (⟨.policyEvaluate .beforeModel (.request request) context, .ok decision⟩ :
      (o : Op V) × Except Exn o.Resp) ∈ h →
    (decision.action = .redact ∨ decision.action = .transform) →
    decision.value = some (.request changed) → changed.maxOutputTokens = request.maxOutputTokens

section
variable (B U : Int)

/-- The cap leaves the budget `B` of a driver that has read its run with `U` tokens. -/
def CapFits (h : Awaits V) (request : ModelRequest V) : Prop :=
  ∃ cap, request.maxOutputTokens = some cap ∧ cap ≤ max 1 (B - (U + received h))

/-- Another attempt may follow: the response of the last one is charged, and if the limit was not
    raised after it the cap still fits. -/
def MayRetry (h : Awaits V) : Prop :=
  ∀ a, lastAttempt h = some a → a.answered = true →
    a.broken = false ∧ (a.raised = false → CapFits B U h a.request)

/-- Attempts follow only where they may, and a stream brings one response. -/
def Paced : Awaits V → Prop
  | [] => True
  | ⟨o, r⟩ :: h => Paced h ∧ (o.asks ≠ none → MayRetry B U h) ∧
      (o.asks = none → o.brings r ≠ none → ∀ a, lastAttempt h = some a → a.answered = false)

/-- What the claims about caps take for granted. -/
def Steady (h : Awaits V) : Prop := CapsKept h ∧ Paced B U h

/-- What a driver may ask for. -/
def mayAsk (h : Awaits V) (o : Op V) : Prop :=
  ∀ request, o.asks = some request → Steady B U h → MayRetry B U h → CapFits B U h request

/-- The tokens with which a run is charged. -/
def RunState.tokens (s : RunState V) : Int := s.summary.usage.totalTokens

/-- The run is charged with what has been received. -/
def Tallied (s : RunState V) (h : Awaits V) : Prop := Steady B U h → s.tokens = U + received h

/-- The request may be sent. -/
def ReadyToAsk (s : RunState V) (request : ModelRequest V) (h : Awaits V) : Prop :=
  Steady B U h → MayRetry B U h → s.tokens = U + received h ∧ CapFits B U h request

/-- The attempt has brought this response so far, which is not charged. -/
def Brought (s : RunState V) (request : ModelRequest V) (response : Option (ModelResponse V))
    (h : Awaits V) : Prop :=
  Steady B U h → s.tokens + tokensOf response = U + received h ∧
    (response = none → CapFits B U h request) ∧ ∃ a, lastAttempt h = some a ∧
      a.request = request ∧ a.raised = false ∧ a.broken = false ∧ a.answered = response.isSome

/-- The attempt has failed. -/
def FailedAttempt (s : RunState V) (request : ModelRequest V) (h : Awaits V) : Prop :=
  Steady B U h → ∃ a, lastAttempt h = some a ∧ a.request = request ∧ a.raised = false ∧
    ((a.answered = true → a.broken = false) →
      s.tokens = U + received h ∧ (a.answered = false → CapFits B U h request))

/-- A response that is not yet charged. -/
def Owes (s : RunState V) (response : ModelResponse V) (h : Awaits V) : Prop :=
  Steady B U h → s.tokens + response.usage.totalTokens = U + received h

end

section
variable {B U : Int} {o : Op V} {r : Except Exn o.Resp} {h : Awaits V} {s : RunState V}
  {request : ModelRequest V}

theorem Steady.tail {x : (o : Op V) × Except Exn o.Resp} (hs : Steady B U (x :: h)) :
    Steady B U h :=
  ⟨fun q c d q' hm => hs.1 q c d q' (List.mem_cons_of_mem _ hm), hs.2.1⟩

/-- An await that sends nothing to the router and gets nothing from it. -/
def Op.isStill : Op V → Bool
  | generate .. | streamOpen .. | streamNext => false
  | _ => true

/-- Of these, the awaits that are no part of the course of a model step. -/
def Op.isMute (o : Op V) : Bool := o.isStill && !o.startsModel && !o.raisesLimit

theorem Op.isStill_of_isMute (ho : o.isMute = true) : o.isStill = true := by
  simp only [Op.isMute, Bool.and_eq_true] at ho
  exact ho.1.1

theorem Op.asks_of_isStill (ho : o.isStill = true) : o.asks = none := by
  cases o <;> first | rfl | cases ho

theorem Op.brings_of_isStill (ho : o.isStill = true) : o.brings r = none := by
  cases o <;> first | rfl | cases ho

theorem received_still (ho : o.isStill = true) : received (⟨o, r⟩ :: h) = received h := by
  simp [received, Op.brings_of_isStill ho, tokensOf]

theorem CapFits.still (ho : o.isStill = true) :
    CapFits B U (⟨o, r⟩ :: h) request ↔ CapFits B U h request := by
  simp [CapFits, received_still ho]

theorem mayAsk_of_isStill (ho : o.isStill = true) : mayAsk B U h o := by
  intro request hask
  rw [Op.asks_of_isStill ho] at hask
  cases hask

theorem Tallied.still (ht : Tallied B U s h) (ho : o.isStill = true) :
    Tallied B U s (⟨o, r⟩ :: h) := by
  intro hs
  rw [received_still ho]
  exact ht hs.tail

theorem Owes.still {response : ModelResponse V} (ht : Owes B U s response h)
    (ho : o.isStill = true) : Owes B U s response (⟨o, r⟩ :: h) := by
  intro hs
  rw [received_still ho]
  exact ht hs.tail

/-- An await that is not the start of a model step goes on with its attempt. -/
theorem lastAttempt_cons (ha : o.asks = none) (hn : o.startsModel = false) :
    lastAttempt (⟨o, r⟩ :: h) = (lastAttempt h).map fun a => a.see o r := by
  simp [lastAttempt, ha, hn]

theorem lastAttempt_asks (ha : o.asks = some request) :
    lastAttempt (⟨o, r⟩ :: h) = some (ModelAttempt.see { request } o r) := by
  simp [lastAttempt, ha]

theorem MayRetry.of_mute (ho : o.isMute = true) (hm : MayRetry B U (⟨o, r⟩ :: h)) :
    MayRetry B U h := by
  have hstill := Op.isStill_of_isMute ho
  simp only [Op.isMute, Bool.and_eq_true, Bool.not_eq_true'] at ho
  intro a ha hanswered
  have hnext := lastAttempt_cons (r := r) (h := h) (Op.asks_of_isStill hstill) ho.1.2
  rw [ha] at hnext
  obtain ⟨hbroken, hcap⟩ := hm _ hnext (by simp [ModelAttempt.see, hanswered])
  simp only [ModelAttempt.see, Bool.or_eq_false_iff] at hbroken hcap
  refine ⟨hbroken.1, fun hraised => ?_⟩
  exact (CapFits.still hstill).1 (hcap ⟨hraised, ho.2⟩)

theorem ReadyToAsk.mute (hr : ReadyToAsk B U s request h) (ho : o.isMute = true) :
    ReadyToAsk B U s request (⟨o, r⟩ :: h) := by
  intro hs hm
  obtain ⟨htokens, hcap⟩ := hr hs.tail (hm.of_mute ho)
  have hstill := Op.isStill_of_isMute ho
  exact ⟨by rw [received_still hstill, htokens], (CapFits.still hstill).2 hcap⟩

/-! ## One attempt -/

/-- The stream is open. -/
theorem ReadyToAsk.opens (hr : ReadyToAsk B U s request h) (ha : o.asks = some request)
    (hb : o.brings r = none) : Brought B U s request none (⟨o, r⟩ :: h) := by
  intro hs
  obtain ⟨htokens, hcap⟩ := hr hs.tail (hs.2.2.1 (by simp [ha]))
  have hreceived : received (⟨o, r⟩ :: h) = received h := by simp [received, hb, tokensOf]
  refine ⟨?_, fun _ => ?_, _, lastAttempt_asks ha, rfl, ?_, rfl, ?_⟩
  · simp [tokensOf, hreceived, htokens]
  · simpa only [CapFits, hreceived] using hcap
  · cases o <;> first | rfl | cases ha
  · simp [ModelAttempt.see, hb]

/-- The response has come. -/
theorem ReadyToAsk.answered {profiles : List (ModelProfile V)} {allowlist : Finset String}
    {response : ModelResponse V} (hr : ReadyToAsk B U s request h) :
    Brought B U s request (some response)
      (⟨.generate request profiles allowlist, .ok response⟩ :: h) := by
  intro hs
  obtain ⟨htokens, -⟩ := hr hs.tail (hs.2.2.1 nofun)
  refine ⟨?_, (fun hn => by cases hn), _, rfl, rfl, rfl, rfl, rfl⟩
  simp only [received, Op.brings, tokensOf, Option.elim]
  omega

/-- An event of the stream. -/
theorem Brought.event {response : Option (ModelResponse V)} {event : ModelStreamEvent V}
    (hb : Brought B U s request response h) :
    Brought B U s request (event.response.or response) (⟨.streamNext, .ok event⟩ :: h) := by
  intro hs
  obtain ⟨htokens, hcap, a, ha, hrequest, hraised, hbroken, hanswered⟩ := hb hs.tail
  have hone : event.response ≠ none → response = none := by
    intro hne
    have hfirst := hs.2.2.2 rfl hne a ha
    rw [hanswered] at hfirst
    simpa using hfirst
  refine ⟨?_, ?_, a.see .streamNext (.ok event), ?_, hrequest, ?_, ?_, ?_⟩
  · cases he : event.response with
    | none =>
      simp only [received, Op.brings, he, tokensOf, Option.elim, Option.none_or] at htokens ⊢
      omega
    | some new =>
      have hnone := hone (by simp [he])
      subst hnone
      simp only [received, Op.brings, he, tokensOf, Option.elim, Option.some_or] at htokens ⊢
      omega
  · intro hn
    rw [Option.or_eq_none_iff] at hn
    simpa [CapFits, received, Op.brings, hn.1, tokensOf] using hcap hn.2
  · rw [lastAttempt_cons rfl rfl, ha]
    rfl
  · simp [ModelAttempt.see, hraised, Op.raisesLimit]
  · simp [ModelAttempt.see, hbroken, isProviderError]
  · cases he : event.response <;> simp [ModelAttempt.see, hanswered, Op.brings, he]

theorem Brought.mute {response : Option (ModelResponse V)} {v : o.Resp}
    (hb : Brought B U s request response h) (ho : o.isMute = true) :
    Brought B U s request response (⟨o, .ok v⟩ :: h) := by
  intro hs
  have hstill := Op.isStill_of_isMute ho
  simp only [Op.isMute, Bool.and_eq_true, Bool.not_eq_true'] at ho
  obtain ⟨htokens, hcap, a, ha, hrequest, hraised, hbroken, hanswered⟩ := hb hs.tail
  refine ⟨by rw [received_still hstill, htokens], fun hn => (CapFits.still hstill).2 (hcap hn),
    a.see o (.ok v), ?_, hrequest, ?_, ?_, ?_⟩
  · rw [lastAttempt_cons (Op.asks_of_isStill hstill) ho.1.2, ha]
    rfl
  · simp [ModelAttempt.see, hraised, ho.2]
  · simp [ModelAttempt.see, hbroken, isProviderError]
  · simp [ModelAttempt.see, hanswered, Op.brings_of_isStill hstill]

/-- The stream breaks off. -/
theorem Brought.breaks {response : Option (ModelResponse V)} {e : Exn}
    (hb : Brought B U s request response h) (ha : o.asks = none) (hn : o.startsModel = false)
    (hl : o.raisesLimit = false) (he : e.isProvider = true) :
    FailedAttempt B U s request (⟨o, .error e⟩ :: h) := by
  intro hs
  obtain ⟨htokens, hcap, a, hlast, hrequest, hraised, hbroken, hanswered⟩ := hb hs.tail
  have hbrings : o.brings (.error e) = none := by cases o <;> rfl
  have hreceived : received (⟨o, .error e⟩ :: h) = received h := by
    simp [received, hbrings, tokensOf]
  refine ⟨a.see o (.error e), ?_, hrequest, ?_, ?_⟩
  · rw [lastAttempt_cons ha hn, hlast]
    rfl
  · simp [ModelAttempt.see, hraised, hl]
  · simp only [ModelAttempt.see, hbrings, isProviderError, he, hbroken, Option.isSome_none,
      Bool.or_false, Bool.and_true, Bool.false_or]
    intro hfalse
    have hnot : a.answered = false := by
      cases hc : a.answered with
      | false => rfl
      | true => rw [hfalse hc] at hc; cases hc
    have hnone : response = none := by
      rw [hanswered] at hnot
      simpa using hnot
    subst hnone
    refine ⟨?_, fun _ => ?_⟩
    · rw [hreceived]
      simpa [tokensOf] using htokens
    · simpa only [CapFits, hreceived] using hcap rfl

/-- There is no response. -/
theorem Brought.ends_empty (hb : Brought B U s request none h) :
    FailedAttempt B U s request h := by
  intro hs
  obtain ⟨htokens, hcap, a, hlast, hrequest, hraised, -⟩ := hb hs
  refine ⟨a, hlast, hrequest, hraised, fun _ => ⟨?_, fun _ => hcap rfl⟩⟩
  simpa [tokensOf] using htokens

/-- The response is rejected, and charged. -/
theorem Brought.rejected {response : ModelResponse V}
    (hb : Brought B U s request (some response) h) :
    FailedAttempt B U (charge s response) request h := by
  intro hs
  obtain ⟨htokens, -, a, hlast, hrequest, hraised, -, hanswered⟩ := hb hs
  refine ⟨a, hlast, hrequest, hraised, fun _ => ⟨?_, fun hn => ?_⟩⟩
  · rw [← htokens]
    simp only [RunState.tokens, charge, addUsage, TokenUsage.totalTokens, tokensOf, Option.elim]
    omega
  · rw [hanswered] at hn
    cases hn

/-- The same request may be sent again where `MayRetry` says so. -/
theorem FailedAttempt.again (hf : FailedAttempt B U s request h) :
    ReadyToAsk B U s request h := by
  intro hs hm
  obtain ⟨a, hlast, rfl, hraised, htokens⟩ := hf hs
  obtain ⟨htokens, hcap⟩ := htokens fun hanswered => (hm a hlast hanswered).1
  refine ⟨htokens, ?_⟩
  cases hanswered : a.answered with
  | false => exact hcap hanswered
  | true => exact (hm a hlast hanswered).2 hraised

/-- A request with a new limit. -/
theorem FailedAttempt.raised {next : ModelRequest V} {cap : Int} (hf : FailedAttempt B U s request h)
    (hn : next.maxOutputTokens = some cap) (hcap : cap ≤ max 1 (B - s.tokens))
    (ho : o.isStill = true) (hstart : o.startsModel = false) :
    ReadyToAsk B U s next (⟨o, r⟩ :: h) := by
  intro hs hm
  obtain ⟨a, hlast, -, -, htokens⟩ := hf hs.tail
  have hnext := lastAttempt_cons (r := r) (h := h) (Op.asks_of_isStill ho) hstart
  rw [hlast] at hnext
  have hcharged : s.tokens = U + received h := by
    refine (htokens fun hanswered => ?_).1
    have hbroken := (hm _ hnext (by simp [ModelAttempt.see, hanswered])).1
    simp only [ModelAttempt.see, Bool.or_eq_false_iff] at hbroken
    exact hbroken.1
  rw [CapFits, received_still ho]
  exact ⟨hcharged, cap, hn, hcharged ▸ hcap⟩

end

/-! ## Programs beside the model calls -/

theorem Saves.tokens {target : RunStatus} {s s' : RunState V} (h : Saves target s s') :
    s'.tokens = s.tokens := by
  obtain ⟨now, rfl⟩ := h
  rfl

/-- A program that asks the router for nothing. -/
abbrev Still {α : Type} (p : Task V α) : Prop := p.Uses fun o => o.isStill = true

section
variable {B U : Int} {s : RunState V} {agent : AgentDefinition V} {α : Type}

/-- Such a program keeps what its awaits keep. -/
theorem Still.obeys {p : Task V α} (hp : Still p) {I : Awaits V → Prop}
    (hI : ∀ o r h, o.isStill = true → I h → I (⟨o, r⟩ :: h)) {h : Awaits V} (h₀ : I h) :
    p.Obeys (mayAsk B U) (fun _ h' => I h') h := by
  refine Obeys.of_uses (fun o h ho _ => ?_) hI hp h₀
  exact mayAsk_of_isStill ho

theorem Still.returns {p : Task V α} (hp : Still p) {I : Awaits V → Prop}
    (hI : ∀ o r h, o.isStill = true → I h → I (⟨o, r⟩ :: h)) {h : Awaits V} (h₀ : I h) :
    p.Returns (mayAsk B U) (fun _ => I) h :=
  (hp.obeys hI h₀).mono fun _ _ hI _ _ => hI

theorem Op.isStill_of_isRoutine {o : Op V} (ho : o.isRoutine = true) : o.isStill = true := by
  cases o <;> first | rfl | cases ho

theorem Routine.still {p : Task V α} (hp : Routine p) : Still p :=
  hp.mono fun _ => Op.isStill_of_isRoutine

theorem emit_still {body : EventBody V} {stepId : Option String} : Still (emit s body stepId) :=
  emit_routine.still

theorem saveAs_still {target : RunStatus} : Still (saveAs s target) :=
  Uses.bind (Uses.call rfl) fun _ => Uses.bind (Uses.call rfl) fun _ => Uses.pure _

theorem transition_still {target : RunStatus} : Still (transition s target) :=
  Uses.bind (Uses.lift _) fun _ => saveAs_still

theorem policyValue_still {point : PolicyPoint} {payload : Payload V} {context : PolicyContext V} :
    Still (policyValue point payload s context) :=
  policyValue_routine.still

end

/-! ## One model step -/

section
variable {B U : Int} {s : RunState V} {agent : AgentDefinition V} {request : ModelRequest V}
  {profiles : List (ModelProfile V)} {stepId : String} {h : Awaits V}

/-- What has come of a request that was sent. -/
def Answered {α : Type} (B U : Int) (s : RunState V) (request : ModelRequest V)
    (response : α → Option (ModelResponse V)) : Except Exn α → Awaits V → Prop
  | .ok a, h => Brought B U s request (response a) h
  | .error e, h => e.isProvider = true → FailedAttempt B U s request h

theorem emitDelta_answered {s₀ : RunState V} {delta : String}
    {response : Option (ModelResponse V)} (hb : Brought B U s request response h) :
    (emit s₀ (.modelDelta delta) (some stepId)).Obeys (mayAsk B U)
      (Answered B U s request fun _ => response) h := by
  refine Obeys.bind (Obeys.call (mayAsk_of_isStill rfl) fun r => ?_)
  cases r with
  | error e => exact fun he => hb.breaks rfl rfl rfl he
  | ok sequence =>
    have hb₁ := hb.mute (o := .nextSequence s₀.id) (v := sequence) rfl
    refine Obeys.call (mayAsk_of_isStill rfl) fun r => ?_
    cases r with
    | error e => exact fun he => hb₁.breaks rfl rfl rfl he
    | ok _ => exact hb₁.mute rfl

theorem collect_answered {s₀ : RunState V} {n : Nat} {parts : List String}
    {completed : Option (ModelResponse V)} (hb : Brought B U s request completed h) :
    (collect s₀ stepId n parts completed).Obeys (mayAsk B U)
      (Answered B U s request Prod.snd) h := by
  induction n generalizing parts completed h with
  | zero => exact hb
  | succ n ih =>
    refine Obeys.bind (Obeys.call (fun q hq => by cases hq) fun r => ?_)
    cases r with
    | error e => exact fun he => hb.breaks rfl rfl rfl he
    | ok event =>
      have hb₁ : Brought B U s request (event.response.or completed)
          (⟨.streamNext, .ok event⟩ :: h) := hb.event
      dsimp only
      split
      · exact Obeys.bind (ih hb₁)
      · refine Obeys.bind ((emitDelta_answered hb₁).mono fun x h' hx => ?_)
        cases x with
        | error e => exact hx
        | ok _ => exact Obeys.bind (ih hx)

theorem requestModel_answered (hr : ReadyToAsk B U s request h) :
    (requestModel s agent request profiles stepId).Obeys (mayAsk B U)
      (Answered B U s request some) h := by
  have hmay : ∀ o : Op V, o.asks = some request → mayAsk B U h o := by
    intro o ho q hq hs hm
    rw [ho] at hq
    cases hq
    exact (hr hs hm).2
  unfold requestModel
  split
  · refine Obeys.bind (Obeys.call (hmay _ rfl) fun r => ?_)
    have hopen := hr.opens (o := .streamOpen request profiles agent.modelAllowlist) (r := r) rfl
      (by cases r <;> rfl)
    cases r with
    | error e => exact fun _ => hopen.ends_empty
    | ok n =>
      refine Obeys.bind ((collect_answered hopen).mono fun x h' hx => ?_)
      cases x with
      | error e => exact hx
      | ok x =>
        obtain ⟨parts, completed⟩ := x
        cases completed with
        | none => exact fun _ => Brought.ends_empty hx
        | some completed =>
          have same : ∀ c : ModelResponse V, c.usage = completed.usage →
              Brought B U s request (some c) h' := by
            intro c hc hs
            simpa [tokensOf, hc] using hx hs
          refine same _ ?_
          split <;> rfl
  · refine Obeys.call (hmay _ rfl) fun r => ?_
    cases r with
    | error e =>
      have hopen := hr.opens (o := .generate request profiles agent.modelAllowlist)
        (r := .error e) rfl rfl
      exact fun _ => hopen.ends_empty
    | ok response => exact hr.answered

/-- What an attempt returns. -/
def Tried (B U : Int) (request : ModelRequest V)
    (y : Except ProviderFailure (ModelResponse V) × RunState V) (h : Awaits V) : Prop :=
  match y.1 with
  | .ok response => Owes B U y.2 response h
  | .error _ => FailedAttempt B U y.2 request h

theorem attemptModel_asks (hr : ReadyToAsk B U s request h) :
    (attemptModel s agent request profiles stepId).Returns (mayAsk B U)
      (Tried B U request) h := by
  refine Obeys.handle (Obeys.bind ((requestModel_answered hr).mono fun x h' hx => ?_))
  cases x with
  | ok response =>
    intro y hy
    cases hy
    dsimp only [Tried]
    cases validateCompletion response request with
    | none => exact fun hs => (hx hs).1
    | some f => exact Brought.rejected hx
  | error e =>
    cases e with
    | provider m k r =>
      intro y hy
      cases hy
      exact hx rfl
    | _ => exact fun y hy => by cases hy

theorem raiseLimit_eq_some {next : ModelRequest V} (hn : raiseLimit s agent request = some next) :
    ∃ cap, next.maxOutputTokens = some cap ∧ cap ≤ max 1 (agent.budget.maxTokens - s.tokens) := by
  simp only [raiseLimit] at hn
  split at hn
  · cases hn
  · cases hn
    exact ⟨_, rfl, min_le_right _ _⟩

theorem backOff_asks {attempt : Nat} (hr : ReadyToAsk B U s request h) :
    (backOff s agent attempt).Returns (mayAsk B U) (fun s' => ReadyToAsk B U s' request) h := by
  have save : ∀ (s : RunState V) (target : RunStatus),
      (transition s target).Uses fun o => o.isMute = true := fun s target =>
    Uses.bind (Uses.lift _) fun _ => Uses.bind (Uses.call rfl) fun _ =>
      Uses.bind (Uses.call rfl) fun _ => Uses.pure _
  have hmute : (backOff s agent attempt).Uses fun o => o.isMute = true :=
    Uses.bind (save _ _) fun _ => Uses.bind (Uses.call rfl) fun _ => save _ _
  have hends : (backOff s agent attempt).Ends fun s' => s'.tokens = s.tokens :=
    transition_ends.bind fun s₁ h₁ => Ends.after _ fun _ => transition_ends.mono fun s₂ h₂ =>
      h₂.tokens.trans h₁.tokens
  refine (Returns.of_uses (P := fun o => o.isMute = true) (G := ReadyToAsk B U s request)
    (fun o h ho _ => mayAsk_of_isStill (Op.isStill_of_isMute ho))
    (fun o r h ho hr => hr.mute ho) hmute hends hr).mono fun s' h' hx => ?_
  intro hs hm
  rw [hx.2]
  exact hx.1 hs hm

variable (hB : agent.budget.maxTokens = B)
include hB

theorem nextRequest_asks {f : ProviderFailure} (hf : FailedAttempt B U s request h) :
    (nextRequest s agent request profiles f).Returns (mayAsk B U) (ReadyToAsk B U s) h := by
  unfold nextRequest
  split
  · cases hnext : raiseLimit s agent request with
    | none => exact .throw
    | some next =>
      obtain ⟨cap, hcap, hle⟩ := raiseLimit_eq_some hnext
      rw [hB] at hle
      exact Returns.bind (Q := fun _ => ReadyToAsk B U s next)
        (.call (mayAsk_of_isStill rfl) fun _ => hf.raised hcap hle rfl rfl) fun _ _ => .pure
  · exact .pure hf.again

/-- **All attempts of a model step.** -/
theorem modelWithRetry_asks {attempt rest : Nat} (hr : ReadyToAsk B U s request h) :
    (modelWithRetry agent profiles stepId attempt rest s request).Returns (mayAsk B U)
      (fun y => Owes B U y.2 y.1) h := by
  induction rest generalizing attempt s request h with
  | zero =>
    refine (attemptModel_asks hr).bind fun y h' hy => ?_
    obtain ⟨result, s'⟩ := y
    cases result with
    | ok response => exact .pure hy
    | error f => exact .throw
  | succ rest ih =>
    refine (attemptModel_asks hr).bind fun y h' hy => ?_
    obtain ⟨result, s'⟩ := y
    cases result with
    | ok response => exact .pure hy
    | error f =>
      dsimp only
      split
      · exact Returns.bind (Q := fun _ => FailedAttempt B U s' request) (.lift fun _ _ => hy)
          fun _ h₁ hy => (nextRequest_asks hB hy).bind fun next h₂ hr =>
            (backOff_asks hr).bind fun s'' h₃ hr => ih hr
      · exact .throw

end

/-! ## The model step of a driver -/

/-- A response that is read back has the tokens with which it was written. -/
def Lib.KeepsUsage (lib : Lib V) : Prop :=
  ∀ response response', lib.toModelResponse (lib.ofModelResponse response) = some response' →
    response'.usage.totalTokens = response.usage.totalTokens

section
variable {cfg : Config V} {B U : Int} {s : RunState V} {agent : AgentDefinition V}
  {request : ModelRequest V} {h : Awaits V} {α : Type}

/-- The first request of a step. -/
def FirstRequest (B U : Int) (s : RunState V) (request : ModelRequest V) (h : Awaits V) : Prop :=
  Steady B U h → s.tokens = U + received h ∧ CapFits B U h request

theorem FirstRequest.still {o : Op V} {r : Except Exn o.Resp} (hf : FirstRequest B U s request h)
    (ho : o.isStill = true) : FirstRequest B U s request (⟨o, r⟩ :: h) := by
  intro hs
  obtain ⟨htokens, hcap⟩ := hf hs.tail
  exact ⟨by rw [received_still ho, htokens], (CapFits.still ho).2 hcap⟩

theorem FirstRequest.ready (hf : FirstRequest B U s request h) : ReadyToAsk B U s request h :=
  fun hs _ => hf hs

theorem modelResponse_asks (hlib : cfg.lib.KeepsUsage) (hB : agent.budget.maxTokens = B)
    {profiles : List (ModelProfile V)} {stepId : String} (hf : FirstRequest B U s request h) :
    (modelResponse cfg s agent request profiles stepId).Returns (mayAsk B U)
      (fun y => Owes B U y.2 y.1.1) h := by
  have direct : ∀ h', FirstRequest B U s request h' →
      (generateResponse s agent request profiles stepId).Returns (mayAsk B U)
        (fun y => Owes B U y.2 y.1) h' := fun h' hf => modelWithRetry_asks hB hf.ready
  unfold modelResponse
  split
  · exact (direct h hf).bind fun y h' hy => .pure hy
  · split
    · exact (direct h hf).bind fun y h' hy => .pure hy
    · refine Returns.bind (getOrSetJson_returns (I := FirstRequest B U s request)
        (L := fun y h => ∃ response, y.1 = cfg.lib.ofModelResponse response ∧
          Owes B U y.2 response h)
        (fun o h ho => mayAsk_of_isStill (Op.isStill_of_isRoutine ho))
        (fun o r h ho hf => hf.still (Op.isStill_of_isRoutine ho))
        (fun y o r h ho hy => hy.imp fun _ hy => ⟨hy.1, hy.2.still (Op.isStill_of_isRoutine ho)⟩) hf
        fun h' hf => (direct h' hf).bind fun y h'' hy => .pure ⟨y.1, rfl, hy⟩)
        fun y h' hy => ?_
      split
      · exact .throw
      · rename_i response hread
        refine .pure fun hs => ?_
        dsimp only
        rcases hy with ⟨hhit, hstate, hf⟩ | ⟨hmiss, written, hwritten, howed⟩
        · rw [hhit, hstate, ← (hf hs).1]
          simp [markCached, TokenUsage.totalTokens]
        · rw [hmiss, if_neg (by simp), ← howed hs]
          rw [hwritten] at hread
          rw [hlib _ _ hread]

/-- The program only asks for what it may, and the run it returns is charged. -/
def Tallies (B U : Int) (s : RunState V) (p : Task V (RunState V)) : Prop :=
  ∀ h, Tallied B U s h → p.Returns (mayAsk B U) (Tallied B U) h

theorem Tallies.of_still {p : Task V (RunState V)} (hp : Still p)
    (he : p.Ends fun s' => s'.tokens = s.tokens) : Tallies B U s p := by
  intro h ht
  refine (Returns.of_uses (P := fun o => o.isStill = true) (G := Tallied B U s)
    (fun o h ho _ => mayAsk_of_isStill ho) (fun o r h ho ht => ht.still ho) hp he ht).mono
    fun s' h' hx => ?_
  intro hs
  rw [hx.2]
  exact hx.1 hs

theorem Tallies.throw {e : Exn} : Tallies B U s (throw e) := fun _ _ => Returns.throw

theorem Tallies.bind {p : Task V (RunState V)} {f : RunState V → Task V (RunState V)}
    (hp : Tallies B U s p) (hf : ∀ s', Tallies B U s' (f s')) : Tallies B U s (p >>= f) :=
  fun h ht => (hp h ht).bind fun s' h' ht' => hf s' h' ht'

/-- What comes first asks for nothing. -/
theorem Still.tallies {p : Task V α} {f : α → Task V (RunState V)} (hp : Still p)
    (hf : ∀ a, Tallies B U s (f a)) : Tallies B U s (p >>= f) :=
  fun _ ht => Returns.bind (hp.returns (fun _ _ _ ho ht => Tallied.still ht ho) ht)
    fun a h' ht' => hf a h' ht'

theorem transition_tallies {s₀ : RunState V} {target : RunStatus} (hs : s₀.tokens = s.tokens) :
    Tallies B U s (transition s₀ target) :=
  .of_still transition_still (transition_ends.mono fun _ h => h.tokens.trans hs)

/-- The policies before a model call. -/
theorem beforeModel_returns {s₀ : RunState V} {context : PolicyContext V} {I : Awaits V → Prop}
    (hI : ∀ o r h, o.isStill = true → I h → I (⟨o, r⟩ :: h)) (h₀ : I h) :
    (policyValue .beforeModel (.request request) s₀ context).Returns (mayAsk B U)
      (fun checked h' => I h' ∧ (Steady B U h' → ∀ changed, checked = some (.request changed) →
        changed.maxOutputTokens = request.maxOutputTokens)) h := by
  let asked : PolicyContext V := { context with
    runId := some s₀.id, tenantId := some s₀.request.tenantId, userId := some s₀.request.userId,
    usage := some s₀.summary.usage, stepCount := some s₀.stepCount }
  refine Returns.bind (Q := fun decision h' => I h' ∧
      (⟨.policyEvaluate .beforeModel (.request request) asked, .ok decision⟩ :
        (o : Op V) × Except Exn o.Resp) ∈ h')
    (.call (mayAsk_of_isStill rfl) fun decision => ⟨hI _ _ _ rfl h₀, List.mem_cons_self⟩)
    fun decision h₁ h₁I => ?_
  refine Returns.bind (Q := fun _ h' => I h' ∧
      (⟨.policyEvaluate .beforeModel (.request request) asked, .ok decision⟩ :
        (o : Op V) × Except Exn o.Resp) ∈ h')
    (.call (mayAsk_of_isStill rfl) fun _ => ⟨hI _ _ _ rfl h₁I.1, List.mem_cons_of_mem _ h₁I.2⟩)
    fun _ h₂ h₂I => ?_
  have changes : (decision.action = .redact ∨ decision.action = .transform) →
      (Pure.pure decision.value : Task V (Option (Payload V))).Returns (mayAsk B U)
        (fun checked h' => I h' ∧ (Steady B U h' → ∀ changed, checked = some (.request changed) →
          changed.maxOutputTokens = request.maxOutputTokens)) h₂ := fun ha =>
    .pure ⟨h₂I.1, fun hs changed hc => hs.1 request asked decision changed h₂I.2 ha hc⟩
  cases ha : decision.action with
  | deny | requireApproval | requireClarification => exact .throw
  | redact => exact changes (.inl ha)
  | transform => exact changes (.inr ha)
  | allow =>
    refine .pure ⟨h₂I.1, fun _ changed hc => ?_⟩
    cases hc
    rfl

theorem checkedResponse_usage {response : ModelResponse V} {checked : Option (Payload V)} :
    (checkedResponse cfg response checked).usage = response.usage := by
  unfold checkedResponse
  split
  · dsimp only
    split <;> rfl
  · rfl

/-- **A model step** asks for what it may. -/
theorem executeModel_asks (hlib : cfg.lib.KeepsUsage) (hB : agent.budget.maxTokens = B)
    {action : PlannedAction V} : Tallies B U s (executeModel cfg s agent action) := by
  intro h ht
  have kept : ∀ {s₁ : RunState V} (o : Op V) (r : Except Exn o.Resp) (h : Awaits V),
      o.isStill = true → Tallied B U s₁ h → Tallied B U s₁ (⟨o, r⟩ :: h) :=
    fun _ _ _ ho ht => ht.still ho
  refine (transition_tallies rfl h ht).bind fun s₁ h₁ ht₁ =>
    Returns.bind (remainingSeconds_routine.still.returns kept ht₁) fun timeoutSeconds h₂ ht₂ =>
      Returns.bind (beforeModel_returns kept ht₂) fun checked h₃ hchecked => ?_
  obtain ⟨ht₃, hcap⟩ := hchecked
  have hfirst : ∀ request, (request = modelRequest cfg s₁ agent timeoutSeconds ∨
      checked = some (.request request)) → FirstRequest B U s₁ request h₃ := by
    intro request hrequest hs
    refine ⟨ht₃ hs, min (orElse s₁.request.overrides.maxOutputTokens agent.budget.maxOutputTokens)
      (max 1 (agent.budget.maxTokens - s₁.summary.usage.totalTokens)), ?_, ?_⟩
    · rcases hrequest with rfl | hchanged
      · rfl
      · exact hcap hs request hchanged
    · rw [← ht₃ hs, hB]
      exact min_le_right _ _
  refine Returns.bind (emit_still.returns (I := FirstRequest B U s₁ _)
    (fun o r h ho hf => hf.still ho) (hfirst _ ?_)) fun _ h₄ hf =>
      (modelResponse_asks hlib hB hf).bind fun y h₅ howed =>
        Returns.bind (policyValue_still.returns (fun o r h ho hy => Owes.still hy ho) howed)
          fun checked' h₆ howed => ?_
  · split
    · exact .inr rfl
    · exact .inl rfl
  have hcharged : Tallied B U (withResponse y.2 (checkedResponse cfg y.1.1 checked')) h₆ := by
    intro hs
    rw [← howed hs]
    simp only [RunState.tokens, withResponse, charge, addUsage, TokenUsage.totalTokens,
      checkedResponse_usage]
    omega
  exact Returns.bind (emit_still.returns kept hcharged) fun _ h₇ ht₇ =>
    Returns.bind (Q := fun _ => Tallied B U _) (.call (mayAsk_of_isStill rfl) fun _ => ht₇.still rfl)
      fun _ h₈ ht₈ => transition_tallies rfl h₈ ht₈

end

/-! ## The rest of a driver -/

section
variable {cfg : Config V} {B U : Int} {s : RunState V} {agent : AgentDefinition V}

theorem tallies_iff {p : Task V (RunState V)} : Tallies B U s p ↔
    Retains (mayAsk B U) (Tallied B U) (fun _ => True) id s p := by
  refine forall₂_congr fun h _ => ⟨fun hp => Obeys.mono hp fun x h' hx => ?_, fun hp =>
    Obeys.mono hp fun x h' hx a ha => ?_⟩
  · cases x with
    | ok a => exact hx a rfl
    | error e => trivial
  · subst ha
    exact hx

theorem tallied_ways : Ways (V := V) (mayAsk B U) (Tallied B U) fun _ => True where
  allows _ _ ho := mayAsk_of_isStill (Op.isStill_of_isRoutine ho)
  keep _ _ _ _ ho ht := ht.still (Op.isStill_of_isRoutine ho)
  continues s s' h hs ht := by
    intro hst
    have htokens : s'.tokens = s.tokens := congrArg TokenUsage.totalTokens hs.usage
    rw [htokens]
    exact ht hst
  save _ _ _ := tallies_iff.1 (.of_still saveAs_still (saveAs_ends.mono fun _ h => h.tokens))
  error _ _ _ := trivial

theorem verifyAndComplete_tallies {stepId : String} :
    Tallies B U s (verifyAndComplete cfg s agent stepId) := by
  refine (transition_tallies rfl).bind fun s₁ => Still.tallies (Uses.call rfl) fun results =>
    emit_still.tallies fun _ => ?_
  split
  · exact tallies_iff.2 tallied_ways.compose
  · split
    · refine Tallies.bind (transition_tallies ?_) fun _ => transition_tallies rfl
      rfl
    · exact .throw

variable (hlib : cfg.lib.KeepsUsage) (hB : agent.budget.maxTokens = B)
include hlib hB

/-- **The course of a driver** as far as its tokens go. -/
theorem tallied_course : Course (mayAsk B U) (Tallied B U) (fun _ => True) cfg agent where
  toWays := tallied_ways
  model _ _ := tallies_iff.1 (executeModel_asks hlib hB)
  verify _ _ := tallies_iff.1 verifyAndComplete_tallies

theorem executeTimed_asks {h : Awaits V} (ht : Tallied B U s h) :
    (executeTimed cfg s agent).Obeys (mayAsk B U) (fun _ _ => True) h := by
  refine Obeys.bind ((remainingSeconds_routine.still.obeys (I := Tallied B U s)
    (fun _ _ _ ho ht => ht.still ho) ht).mono fun x h₁ ht₁ => ?_)
  cases x with
  | error e => trivial
  | ok remaining =>
    have hexecute : (execute cfg s agent).Obeys (mayAsk B U) (fun _ _ => True) h₁ :=
      Obeys.mono ((tallied_course hlib hB).execute h₁ ht₁) fun _ _ _ => trivial
    cases remaining with
    | none =>
      refine Obeys.bind (hexecute.mono fun x _ _ => ?_)
      cases x <;> trivial
    | some _ =>
      refine Obeys.bind (Obeys.mono (Q := fun _ _ => True) (Obeys.handle
        (hexecute.timed.mono fun x _ _ => ?_)) fun x _ _ => ?_)
      · cases x <;> trivial
      · cases x <;> trivial

end

section
variable {cfg : Config V} {B U : Int} {runId tenantId : String} {s : RunState V}
  {agent : AgentDefinition V} {h : Awaits V}

theorem Still.asks {α : Type} {p : Task V α} (hp : Still p) (h : Awaits V) :
    p.Obeys (mayAsk B U) (fun _ _ => True) h :=
  hp.obeys (I := fun _ => True) (fun _ _ _ _ _ => trivial) trivial

theorem requireState_still : Still (requireState runId tenantId : Task V (RunState V)) :=
  requireState_routine.still

theorem settle_still {target : RunStatus} {body : RunState V → EventBody V} :
    Still (do let s ← transition s target; emit s (body s) none : Task V Unit) :=
  Uses.bind transition_still fun _ => emit_still

theorem timedOut_still : Still (timedOut runId tenantId : Task V Unit) := by
  refine Uses.bind requireState_still fun current => ?_
  split
  · trivial
  · exact settle_still

theorem failed_still {e : Exn} : Still (failed runId tenantId e : Task V Unit) := by
  refine Uses.bind requireState_still fun current => ?_
  split
  · trivial
  · exact settle_still

theorem cancelled_still : Still (cancelled runId tenantId : Task V Unit) := by
  refine Uses.bind requireState_still fun current => ?_
  split
  · trivial
  · refine Uses.bind (Uses.call rfl) fun shutdown => ?_
    split
    · exact Uses.bind saveAs_still fun _ => Uses.pure _
    · exact settle_still

/-- What a driver knows when it begins. -/
def begins (runId tenantId name : String) (version : Option String) (s : RunState V)
    (agent : AgentDefinition V) : Awaits V :=
  [⟨.agentsGet name version, .ok agent⟩, ⟨.runsGet runId tenantId, .ok (some s)⟩]

theorem driveObserved_asks (hlib : cfg.lib.KeepsUsage) (hB : agent.budget.maxTokens = B)
    (ht : Tallied B U s h) : (do
      driveObserved cfg runId tenantId s agent
      let _ ← requireState runId tenantId
      Pure.pure () : Task V Unit).Obeys (mayAsk B U) (fun _ _ => True) h := by
  have hend : Still (do let _ ← requireState runId tenantId; Pure.pure () : Task V Unit) :=
    Uses.bind requireState_still fun _ => Uses.pure _
  refine Obeys.bind (Obeys.mono (Q := fun _ _ => True) (Obeys.handle
    ((executeTimed_asks hlib hB ht).mono fun x h' _ => ?_)) fun x h' _ => ?_)
  · cases x with
    | ok _ => trivial
    | error e =>
      cases e with
      | timeoutError => exact timedOut_still.asks h'
      | cancelled | deadline => exact cancelled_still.asks h'
      | _ => exact failed_still.asks h'
  · cases x with
    | ok _ => exact hend.asks h'
    | error e => trivial

/-- **A driver asks for what it may**, by the budget and the tokens that it has read. -/
theorem drive_asks (hlib : cfg.lib.KeepsUsage) {name : String} {version : Option String}
    {q : Task V Unit} (hq : (drive cfg runId tenantId).After
      (h ++ begins runId tenantId name version s agent) q) :
    q.Obeys (mayAsk agent.budget.maxTokens s.tokens) (fun _ _ => True)
      (h ++ begins runId tenantId name version s agent) := by
  rcases After.await_cases hq with ⟨hnil, -⟩ | ⟨r, h₁, heq, hr⟩
  · simp [begins] at hnil
  · rw [show h ++ begins runId tenantId name version s agent =
      (h ++ [⟨.agentsGet name version, .ok agent⟩]) ++ [⟨.runsGet runId tenantId, .ok (some s)⟩] by
        simp [begins]] at heq
    obtain ⟨rfl, hread⟩ := List.append_inj' heq rfl
    cases hread
    rcases After.await_cases hr with ⟨hnil, -⟩ | ⟨r, h₂, heq, hr⟩
    · simp at hnil
    · obtain ⟨rfl, hread⟩ := List.append_inj' heq rfl
      cases hread
      refine (driveObserved_asks hlib rfl ?_).after hr
      intro _
      simp [begins, received, Op.brings, tokensOf]

end

/-! ## Deployments -/

/-- Task `t` drives this run. -/
def World.drives (w : World V) (runId : String) (t : Nat) : Bool :=
  (w.drivers.get t).any fun d => d.runId = runId

section
variable {Ans : Op V → Type} {ρ : Type}

/-- The tokens of the responses that these tasks have received. -/
def receivedBy (D : Nat → Bool) : List (Event (Op.Resp (V := V)) Ans Exn ρ) → Int
  | [] => 0
  | .awaited t o _ r :: l => (if D t then tokensOf (o.brings r) else 0) + receivedBy D l
  | _ :: l => receivedBy D l

/-- The run that an await reads. -/
def Op.readsRun : (o : Op V) → Except Exn o.Resp → Option (RunState V)
  | runsGet .., .ok (some s) => some s
  | _, _ => none

/-- Task `t` does nothing after `l`. -/
def Gone (t : Nat) (l : List (Event (Op.Resp (V := V)) Ans Exn ρ)) : Prop :=
  (∃ x, .ended t x ∈ l) ∨ .killed t ∈ l

/-- A driver among `D` begins with a run that is charged with every response so far, and no other
    is under way when it receives one. -/
def InCharge (D : Nat → Bool) (l : List (Event (Op.Resp (V := V)) Ans Exn ρ)) :
    Event (Op.Resp (V := V)) Ans Exn ρ → Prop
  | .awaited t o _ r => D t = true →
      (∀ s, pastOf t l = [] → o.readsRun r = some s → receivedBy D l ≤ s.tokens) ∧
      (o.brings r ≠ none → ∀ u, D u = true → u ≠ t → pastOf u l = [] ∨ Gone u l)
  | _ => True

variable {W : Type} {Y : Sys (Op.Resp (V := V)) Exn W ρ} {begun : W → Set Nat}
  {P₀ P : Pool (Op.Resp (V := V)) Exn W ρ} {D : Nat → Bool}
  {l : List (Event (Op.Resp (V := V)) Y.Ans Exn ρ)} {t : Nat}

theorem receivedBy_outcome {p : Prog (Op.Resp (V := V)) Exn ρ} :
    receivedBy D (outcome t p ++ l) = receivedBy D l := by
  unfold outcome
  split <;> rfl

theorem throughout_outcome {p : Prog (Op.Resp (V := V)) Exn ρ}
    (h : Throughout (InCharge D) (outcome t p ++ l)) : Throughout (InCharge D) l := by
  unfold outcome at h
  split at h
  · exact h
  · exact h.2

/-- A task that is still in flight has not gone. -/
theorem not_gone (hO : Sys.Once Y begun) (h₀ : ∀ t, P₀.tasks t = none) (h : Y.Trace P₀ l P)
    {q : Prog (Op.Resp (V := V)) Exn ρ} (ht : P.tasks t = some q) : ¬ Gone t l := by
  rintro (⟨x, hx⟩ | hk)
  · exact ((h.tracked hO h₀).tasks t q ht).2.2 x hx
  · rw [(h.killed_gone hO h₀ hk).1] at ht
    cases ht

/-- **What a driver knows of** covers what the drivers of its run have received. -/
theorem receivedBy_le (hO : Sys.Once Y begun) (h₀ : ∀ t, P₀.tasks t = none)
    (h : Y.Trace P₀ l P) (hl : Throughout (InCharge D) l) (hD : D t = true)
    {q : Prog (Op.Resp (V := V)) Exn ρ} (ht : P.tasks t = some q) {h' : Awaits V}
    {runId tenantId : String} {s : RunState V}
    (hp : pastOf t l = h' ++ [⟨.runsGet runId tenantId, .ok (some s)⟩]) :
    receivedBy D l ≤ s.tokens + received (pastOf t l) := by
  induction h generalizing q h' with
  | refl =>
    rw [h₀] at ht
    cases ht
  | @enter l P t' p w hl' hn he ih =>
    rw [pastOf_outcome] at hp ⊢
    rw [receivedBy_outcome]
    by_cases hu : t = t'
    · subst hu
      simp at hp
    · rw [pastOf_entered_ne hu] at hp ⊢
      rw [Sys.put_tasks_ne hu] at ht
      exact ih (throughout_outcome hl).2 ht hp
  | @run l P t' b o k r w a hl' hrun ha hact ih =>
    obtain ⟨hnow, hbefore⟩ := throughout_outcome hl
    rw [pastOf_outcome] at hp ⊢
    rw [receivedBy_outcome]
    by_cases hu : t = t'
    · subst hu
      rw [pastOf_awaited_self] at hp ⊢
      rw [receivedBy, if_pos hD, received]
      cases h' with
      | nil =>
        obtain ⟨hx, hpast⟩ := List.cons.inj hp
        cases hx
        have hle := (hnow hD).1 s hpast rfl
        rw [hpast, received]
        simp only [Op.brings, tokensOf, Option.elim] at hle ⊢
        omega
      | cons x h' =>
        obtain ⟨-, hpast⟩ := List.cons.inj hp
        have hle := ih hbefore hrun hpast
        dsimp only
        omega
    · rw [pastOf_awaited_ne hu] at hp ⊢
      rw [Sys.put_tasks_ne hu] at ht
      have hle := ih hbefore ht hp
      rw [receivedBy]
      split
      · rename_i hD'
        cases hb : o.brings r with
        | none => simpa [tokensOf] using hle
        | some response =>
          rcases (hnow hD').2 (by simp [hb]) t hD hu with hnil | hgone
          · rw [hnil] at hp
            simp at hp
          · exact absurd hgone (not_gone hO h₀ hl' ht)
      · simpa using hle
  | @kill l P t' p w hl' htask hk ih =>
    obtain ⟨hu, ht⟩ := Sys.of_update_none ht
    exact ih hl.2 ht hp

end

section
variable {cfg : Config V} {A : Allow cfg.sem.Ans Exn (World V)} {calls : Nat → Call V}
  {crash : Nat → Prop} {w₀ : World V} {l : Log cfg Unit}
  {P : Pool (Op.Resp (V := V)) Exn (World V) Unit}

/-- **A request leaves the budget**, in a run that goes on as above. -/
theorem output_capped (hlib : cfg.lib.KeepsUsage)
    (h : (runtimeSys cfg A calls crash).Trace (freshPool w₀) l P) {t : Nat} {d : Driver}
    {b : Bool} {o : Op V} {k : Except Exn o.Resp → Task V Unit} {request : ModelRequest V}
    (hd : P.world.drivers.get t = some d) (ht : P.tasks t = some (.await b o k))
    (ho : o.asks = some request) {h' : Awaits V} {name : String} {version : Option String}
    {s : RunState V} {agent : AgentDefinition V}
    (hp : pastOf t l = h' ++ begins d.runId d.tenantId name version s agent)
    (hpolicies : CapsKept (pastOf t l))
    (hpaced : Paced agent.budget.maxTokens s.tokens (pastOf t l))
    (hretry : MayRetry agent.budget.maxTokens s.tokens (pastOf t l))
    (hcharge : Throughout (InCharge (P.world.drives d.runId)) l) :
    ∃ cap, request.maxOutputTokens = some cap ∧
      cap ≤ max 1 (agent.budget.maxTokens - receivedBy (P.world.drives d.runId) l) := by
  have hafter := driver_after h hd ht
  rw [hp] at hafter hpolicies hpaced hretry
  obtain ⟨cap, hcap, hle⟩ := (drive_asks hlib hafter).1 request ho ⟨hpolicies, hpaced⟩ hretry
  refine ⟨cap, hcap, hle.trans (max_le_max le_rfl ?_)⟩
  have hread : pastOf t l = (h' ++ [⟨.agentsGet name version, .ok agent⟩]) ++
      [⟨.runsGet d.runId d.tenantId, .ok (some s)⟩] := by
    rw [hp]
    simp [begins]
  have hknown : receivedBy (P.world.drives d.runId) l ≤ s.tokens + received (pastOf t l) :=
    receivedBy_le runtimeSys_once (fun _ => rfl) h hcharge (by simp [World.drives, hd]) ht hread
  rw [hp] at hknown
  omega

end

/-! ## Samples -/

section
variable {B U : Int}

theorem paced_of_still {h : Awaits V} (hh : ∀ a ∈ h, a.1.isStill = true) : Paced B U h := by
  induction h with
  | nil => trivial
  | cons a h ih =>
    have ha := hh a List.mem_cons_self
    refine ⟨ih fun x hx => hh x (List.mem_cons_of_mem _ hx), fun hn => ?_, fun _ hn => ?_⟩
    · exact absurd (Op.asks_of_isStill ha) hn
    · exact absurd (Op.brings_of_isStill ha) hn

/-- An answer of a policy that lets everything through. -/
def allows (a : (o : Op V) × Except Exn o.Resp) : Bool :=
  match a with
  | ⟨.policyEvaluate .., .ok decision⟩ => decision.action = .allow
  | _ => true

theorem capsKept_of_allows {h : Awaits V} (hh : h.all allows = true) : CapsKept h := by
  intro request context decision changed hm hchange
  have hallow := List.all_eq_true.1 hh _ hm
  simp only [allows, decide_eq_true_eq] at hallow
  rw [hallow] at hchange
  rcases hchange with hc | hc <;> cases hc

variable {Ans : Op V → Type} {ρ : Type}

/-- An event without a model call, which reads no run with a negative usage. -/
def callsNoModel : Event (Op.Resp (V := V)) Ans Exn ρ → Bool
  | .awaited _ o _ r => o.isStill && (o.readsRun r).all fun s => 0 ≤ s.tokens
  | _ => true

theorem inCharge_of_callsNoModel {D : Nat → Bool}
    {l : List (Event (Op.Resp (V := V)) Ans Exn ρ)} (hl : l.all callsNoModel = true) :
    receivedBy D l = 0 ∧ Throughout (InCharge D) l := by
  induction l with
  | nil => exact ⟨rfl, trivial⟩
  | cons e l ih =>
    obtain ⟨he, hl⟩ := Bool.and_eq_true_iff.1 hl
    obtain ⟨hzero, hthrough⟩ := ih hl
    cases e with
    | awaited t o a r =>
      obtain ⟨hstill, hread⟩ := Bool.and_eq_true_iff.1 he
      refine ⟨?_, ⟨fun _ => ⟨fun s _ hs => ?_, fun hb => ?_⟩, hthrough⟩⟩
      · simp [receivedBy, Op.brings_of_isStill hstill, tokensOf, hzero]
      · rw [hs] at hread
        rw [hzero]
        exact of_decide_eq_true hread
      · exact absurd (Op.brings_of_isStill hstill) hb
    | entered | ended | killed => exact ⟨hzero, trivial, hthrough⟩

end

namespace Sample

/-- The planner asks the model. -/
def askPlan : Plan String :=
  { actions := [{ id := "model", type := .model, description := "" }], decisionSummary := "" }

/-- An agent that may use a hundred tokens. -/
def thrifty : AgentDefinition String :=
  { agent with budget := { maxTokens := 100, maxOutputTokens := 80 } }

def thriftyWorld : World String := { agents := [("agent@1", thrifty)] }

/-- A request for an object. -/
def objectRequest : RunRequest String :=
  { request with overrides := { responseSchema := some [("type", "object")] } }

/-- A response without text. -/
def blank : ModelResponse String :=
  { id := "r", message := .text .assistant "", usage := { inputTokens := 30, outputTokens := 20 }
    model := "m", provider := "p" }

def generateIs (response : ModelResponse String) :
    (o : Op String) → Act sendCfg.sem.Ans Exn o
  | .generate .. => .done (Answer.ok response)
  | o => obliging o

abbrev thriftySys := runtimeSys sendCfg (fun _ _ _ _ => True) (fun _ => .start objectRequest)
  fun _ => True

def thriftyPlayer : Player thriftySys :=
  runtimePlayer _ _ (fun _ _ _ _ => true) fun _ _ _ _ _ => trivial

/-- The driver 1 of the run comes to its first model call. -/
def toModel : List (Move sendCfg.sem.Ans Exn) :=
  starts 0 1 ++ .enter 1 :: List.replicate 28 (.run 1 (planIs askPlan))

/-- The model request of the next await. -/
def asking : Option (Task String Unit) → Option (ModelRequest String)
  | some (.await _ o _) => o.asks
  | _ => none

theorem exists_of_asking {T : Option (Task String Unit)} {request : ModelRequest String}
    (h : asking T = some request) :
    ∃ b o k, T = some (.await b o k) ∧ o.asks = some request := by
  unfold asking at h
  split at h
  · exact ⟨_, _, _, rfl, h⟩
  · cases h

/-- What a driver has read at first. -/
def opening (h : Awaits String) :
    Option ((String × String) × RunState String × AgentDefinition String) :=
  match h.reverse with
  | ⟨.runsGet runId tenantId, .ok (some s)⟩ :: ⟨.agentsGet _ _, .ok agent⟩ :: _ =>
    some ((runId, tenantId), s, agent)
  | _ => none

theorem begins_of_opening {h : Awaits String} {runId tenantId : String} {s : RunState String}
    {agent : AgentDefinition String} (ho : opening h = some ((runId, tenantId), s, agent)) :
    ∃ h' name version, h = h' ++ begins runId tenantId name version s agent := by
  unfold opening at ho
  split at ho
  · rename_i name version _ rest hr
    cases ho
    refine ⟨rest.reverse, name, version, ?_⟩
    rw [← List.reverse_reverse h, hr]
    simp [begins]
  · cases ho

/-- The driver 1 of the run asks for so many tokens, of a budget of a hundred. -/
def asksFor (cap : Int) (x : List (Event (Op.Resp (V := String)) sendCfg.sem.Ans Exn Unit) ×
    Pool (Op.Resp (V := String)) Exn (World String) Unit) : Bool :=
  x.2.world.drivers.get 1 = some ⟨"run", "tenant", 0⟩ &&
    (asking (x.2.tasks 1)).map (·.maxOutputTokens) = some (some cap) &&
    (opening (pastOf 1 x.1)).map (fun y => (y.1, y.2.2.budget.maxTokens)) =
      some (("run", "tenant"), 100) &&
    (pastOf 1 x.1).all allows

theorem exists_of_asksFor {cap : Int} {l : Log sendCfg Unit}
    {P : Pool (Op.Resp (V := String)) Exn (World String) Unit} (h : asksFor cap (l, P) = true) :
    P.world.drivers.get 1 = some ⟨"run", "tenant", 0⟩ ∧ CapsKept (pastOf 1 l) ∧
      (∃ b o k request, P.tasks 1 = some (.await b o k) ∧ o.asks = some request ∧
        request.maxOutputTokens = some cap) ∧
      ∃ h' name version s agent, agent.budget.maxTokens = 100 ∧
        pastOf 1 l = h' ++ begins "run" "tenant" name version s agent := by
  simp only [asksFor, Bool.and_eq_true, decide_eq_true_eq] at h
  obtain ⟨⟨⟨hd, hask⟩, hopen⟩, hallow⟩ := h
  obtain ⟨request, hask, hcap⟩ := Option.map_eq_some_iff.1 hask
  obtain ⟨b, o, k, ht, ho⟩ := exists_of_asking hask
  obtain ⟨⟨⟨runId, tenantId⟩, s, agent⟩, hopen, heq⟩ := Option.map_eq_some_iff.1 hopen
  obtain ⟨hkey, hbudget⟩ := Prod.mk.inj heq
  cases hkey
  obtain ⟨h', name, version, hp⟩ := begins_of_opening hopen
  exact ⟨hd, capsKept_of_allows hallow, ⟨b, o, k, request, ht, ho, hcap⟩,
    h', name, version, s, agent, hbudget, hp⟩

theorem sendCfg_keepsUsage : sendCfg.lib.KeepsUsage := by
  intro response response' h
  cases h

end Sample

open Sample

/-- The first request of a run. -/
theorem output_capped_first : ∃ l P b o k request cap,
    thriftySys.Trace (freshPool thriftyWorld) l P ∧ P.tasks 1 = some (.await b o k) ∧
      o.asks = some request ∧ request.maxOutputTokens = some cap ∧ cap ≤ 100 := by
  obtain ⟨l, P, hP, hf⟩ := thriftyPlayer.exists_trace toModel (freshPool thriftyWorld)
    (fun x => (asksFor 80 x, (pastOf 1 x.1).all (·.1.isStill),
      (lastAttempt (pastOf 1 x.1)).isNone, x.1.all callsNoModel))
    (a := (true, true, true, true)) (by decide +kernel)
  obtain ⟨hasks, hf⟩ := Prod.mk.inj hf
  obtain ⟨hstill, hf⟩ := Prod.mk.inj hf
  obtain ⟨hnone, hcalls⟩ := Prod.mk.inj hf
  obtain ⟨hd, hkept, ⟨b, o, k, request, ht, ho, -⟩, h', name, version, s, agent, hbudget, hp⟩ :=
    exists_of_asksFor hasks
  obtain ⟨hzero, hcharge⟩ := inCharge_of_callsNoModel (D := P.world.drives "run") hcalls
  obtain ⟨cap, hcap, hle⟩ := output_capped sendCfg_keepsUsage hP hd ht ho hp hkept
    (paced_of_still (List.all_eq_true.1 hstill))
    (fun a ha => by cases ha.symm.trans (Option.isNone_iff_eq_none.1 hnone)) hcharge
  have hzero : receivedBy (P.world.drives "run") l = 0 := hzero
  have hle : cap ≤ max 1 (agent.budget.maxTokens - receivedBy (P.world.drives "run") l) := hle
  rw [hbudget, hzero] at hle
  exact ⟨l, P, b, o, k, request, cap, hP, ht, ho, hcap, hle⟩

/-- A blank response has used half of the tokens, and the same request is sent again. -/
theorem output_uncapped : ¬ ∀ (cfg : Config String) (calls : Nat → Call String)
    (w₀ : World String) (l : Log cfg Unit) (P : Pool (Op.Resp (V := String)) Exn _ Unit),
    cfg.lib.KeepsUsage →
    (runtimeSys cfg (fun _ _ _ _ => True) calls fun _ => True).Trace (freshPool w₀) l P →
    ∀ t d b o k request h' name version s agent, P.world.drivers.get t = some d →
      P.tasks t = some (.await b o k) → o.asks = some request →
      pastOf t l = h' ++ begins d.runId d.tenantId name version s agent →
      CapsKept (pastOf t l) → ∃ cap, request.maxOutputTokens = some cap ∧
        cap ≤ max 1 (agent.budget.maxTokens - receivedBy (P.world.drives d.runId) l) := by
  intro hclaim
  obtain ⟨l, P, hP, hf⟩ := thriftyPlayer.exists_trace
    (toModel ++ .run 1 (generateIs blank) :: obliges 1 5) (freshPool thriftyWorld)
    (fun x => (asksFor 80 x, receivedBy (x.2.world.drives "run") x.1))
    (a := (true, 50)) (by decide +kernel)
  obtain ⟨hasks, hreceived⟩ := Prod.mk.inj hf
  obtain ⟨hd, hkept, ⟨b, o, k, request, ht, ho, hmax⟩, h', name, version, s, agent, hbudget, hp⟩ :=
    exists_of_asksFor hasks
  obtain ⟨cap, hcap, hle⟩ := hclaim sendCfg _ _ l P sendCfg_keepsUsage hP 1 _ b o k request h' name
    version s agent hd ht ho hp hkept
  have hreceived : receivedBy (P.world.drives "run") l = 50 := hreceived
  rw [hmax] at hcap
  cases hcap
  have hle : 80 ≤ max 1 (agent.budget.maxTokens - receivedBy (P.world.drives "run") l) := hle
  rw [hbudget, hreceived] at hle
  exact absurd hle (by decide)

end TracciaRuntime
