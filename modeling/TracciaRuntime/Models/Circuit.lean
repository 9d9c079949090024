/-
  Traccia Runtime formalization — the circuit breaker of the router (`models/base.py`).

  `generate` and `stream` calls run side by side, each up to its next `await`:

  * `considers`, `accepts`, `score`: what `candidates` does with a profile, before and after it
    awaits the capabilities;
  * `RouterPhase`: where a call awaits;
  * `Routing.step`: a call begins, capabilities arrive, the rate limiter lets a call through, an
    invocation ends, or a call is given up. Time passes between the steps as it likes.
-/
import TracciaRuntime.Types
import Mathlib.Data.List.Sort
import Mathlib.Data.NNRat.Defs

namespace TracciaRuntime

open Py

variable {V : Type}

structure ProviderHealth where
  consecutiveFailures : Nat := 0
  openedAt : Option Time := none
  latencyMs : ℚ := 0

/-- What `register_provider` stores. -/
structure Registration where
  costPer1kInput : ℚ := 0
  costPer1kOutput : ℚ := 0
  isLocal : Bool := false
  deriving DecidableEq

structure ModelRouter where
  circuitFailureThreshold : Int := 5
  circuitResetSeconds : ℚ := 30
  providers : Dict String Registration := []

/-- A profile that the ranking has looked at: the provider, with its `opened_at` as of then. -/
structure Seen (V : Type) where
  providerId : String
  profile : ModelProfile V
  now : Time
  openedAt : Option Time

/-- An item of `ranked`. -/
structure Ranked (V : Type) extends Seen V where
  score : ℚ

/-- Where a call awaits. -/
inductive RouterPhase (V : Type) where
  /-- in `candidates`, the capabilities of a model -/
  | asking (x : Seen V) (rest : List (ModelProfile V)) (ranked : List (Ranked V))
  /-- in `stream`, those of the model it has chosen -/
  | choosing (c : Ranked V)
  /-- the rate limiter -/
  | waiting (c : Ranked V) (rest : List (Ranked V))
  /-- the provider, in the invocation of this number -/
  | invoked (k : Nat) (c : Ranked V) (rest : List (Ranked V))
  | done

structure RouterCall (V : Type) where
  streams : Bool
  allowlist : Finset String
  phase : RouterPhase V

/-- How an invocation ends; `raised` is any exception but a `ProviderError`, a cancellation or
    the end of the consumer of a stream. -/
inductive CallOutcome where
  | ok | failed | raised
  deriving DecidableEq

structure ProviderCall where
  call : Nat
  providerId : String
  streamed : Bool
  began : Time
  ended : Option (Time × CallOutcome) := none
  deriving DecidableEq

namespace ModelRouter
variable (R : ModelRouter)

/-- `opened_at and now - opened_at < reset_seconds`: also `0.0` is falsy. -/
def isOpen (openedAt : Option Time) (now : Time) : Bool :=
  openedAt.any fun o => o ≠ 0 ∧ now - o < R.circuitResetSeconds

/-- The provider of a profile that passes the tests before the `await`. -/
def considers (health : String → ProviderHealth) (now : Time) (allowlist : Finset String)
    (profile : ModelProfile V) : Option String :=
  match profile.provider, profile.model with
  | some provider, some model =>
    if allowlist ≠ ∅ ∧ provider ++ "/" ++ model ∉ allowlist then none
    else if R.providers.get provider = none then none
    else if R.isOpen (health provider).openedAt now then none
    else if profile.maxLatencyMs.any fun limit => limit < (health provider).latencyMs then none
    else some provider
  | _, _ => none

def averageCost (providerId : String) : ℚ :=
  let r := (R.providers.get providerId).getD {}
  (r.costPer1kInput + r.costPer1kOutput) / 2

/-- The tests after it. -/
def accepts (capabilities : Finset String) (providerId : String) (profile : ModelProfile V) :
    Bool :=
  profile.requiredCapabilities ⊆ capabilities ∧
    ¬ profile.maxCostPer1kTokens.any fun limit => limit < R.averageCost providerId

def preferenceScore (providerId : String) (profile : ModelProfile V) : ℚ :=
  let locality := ((R.providers.get providerId).getD {}).isLocal
  if profile.routingPreference = "local_first" then if locality then 10000 else 0
  else if profile.routingPreference = "cloud_first" then if locality then 0 else 10000
  else 0

def score (health : ProviderHealth) (providerId : String) (profile : ModelProfile V) : ℚ :=
  profile.qualityTier * 1000 + R.preferenceScore providerId profile - health.latencyMs -
    R.averageCost providerId

/-- The end of `candidates`, and what comes before the next `await`. -/
def choose (streams : Bool) (ranked : List (Ranked V)) : RouterPhase V :=
  match ranked.insertionSort fun a b => b.score ≤ a.score with
  | [] => .done
  | c :: rest => if streams then .choosing c else .waiting c rest

/-- The loop of `candidates`, up to the next profile whose capabilities it needs. -/
def look (health : String → ProviderHealth) (now : Time) (streams : Bool)
    (allowlist : Finset String) (ranked : List (Ranked V)) : List (ModelProfile V) → RouterPhase V
  | [] => choose streams ranked
  | profile :: rest =>
    match R.considers health now allowlist profile with
    | some providerId =>
      .asking ⟨providerId, profile, now, (health providerId).openedAt⟩ rest ranked
    | none => look health now streams allowlist ranked rest

/-- The health of a provider after a `ProviderError`. -/
def trip (h : ProviderHealth) (now : Time) : ProviderHealth :=
  { h with consecutiveFailures := h.consecutiveFailures + 1
           openedAt := if R.circuitFailureThreshold ≤ (h.consecutiveFailures + 1 : Nat)
             then some now else h.openedAt }

end ModelRouter

/-- The next candidate of `generate`. -/
def RouterPhase.next : List (Ranked V) → RouterPhase V
  | [] => .done
  | c :: rest => .waiting c rest

/-! ## Calls side by side -/

inductive RouterAct (V : Type) where
  | call (streams : Bool) (profiles : List (ModelProfile V)) (allowlist : Finset String)
  /-- the capabilities that are there, or an exception -/
  | answer (i : Nat) (capabilities : Option (Finset String))
  | acquire (i : Nat)
  | finish (i : Nat) (outcome : CallOutcome)
  /-- the call is cancelled while it does not await the provider -/
  | abort (i : Nat)

structure Routing (V : Type) where
  clock : Time
  health : String → ProviderHealth := fun _ => {}
  calls : List (RouterCall V) := []
  invocations : List ProviderCall := []

namespace Routing

def put (s : Routing V) (i : Nat) (phase : RouterPhase V) : Routing V :=
  { s with calls := s.calls.modify i fun call => { call with phase } }

/-- An invocation begins. -/
def enter (s : Routing V) (v : ProviderCall) : Routing V :=
  { s with invocations := s.invocations ++ [v] }

/-- The invocation ends. -/
def close (s : Routing V) (k : Nat) (outcome : CallOutcome) : Routing V :=
  { s with invocations := s.invocations.modify k fun v =>
      { v with ended := some (s.clock, outcome) } }

def setHealth (s : Routing V) (providerId : String) (h : ProviderHealth) : Routing V :=
  { s with health := Function.update s.health providerId h }

/-- The time since the invocation began, in milliseconds. -/
def latencyMs (s : Routing V) (k : Nat) : ℚ :=
  (s.clock - (s.invocations[k]?.elim s.clock fun v => v.began)) * 1000

/-- What the call does with the end of its invocation: `stream` leaves the health alone. -/
def record (R : ModelRouter) (s : Routing V) (i k : Nat) (streams : Bool) (c : Ranked V)
    (rest : List (Ranked V)) (outcome : CallOutcome) : Routing V :=
  if streams then s.put i .done
  else match outcome with
    | .ok => (s.setHealth c.providerId { latencyMs := s.latencyMs k }).put i .done
    | .failed => (s.setHealth c.providerId (R.trip (s.health c.providerId) s.clock)).put i
        (.next rest)
    | .raised => s.put i .done

def step (R : ModelRouter) (s : Routing V) : RouterAct V → Routing V
  | .call streams profiles allowlist =>
    { s with calls := s.calls ++
        [⟨streams, allowlist, R.look s.health s.clock streams allowlist [] profiles⟩] }
  | .answer i capabilities =>
    match s.calls[i]?, capabilities with
    | some ⟨streams, allowlist, .asking x rest ranked⟩, some capabilities =>
      s.put i (R.look s.health x.now streams allowlist
        (if R.accepts capabilities x.providerId x.profile then
          ranked ++ [⟨x, R.score (s.health x.providerId) x.providerId x.profile⟩] else ranked) rest)
    | some ⟨_, _, .choosing c⟩, some capabilities =>
      s.put i (if "streaming" ∈ capabilities then .waiting c [] else .done)
    | some ⟨_, _, .asking .. ⟩, none | some ⟨_, _, .choosing _⟩, none => s.put i .done
    | _, _ => s
  | .acquire i =>
    match s.calls[i]? with
    | some ⟨streams, _, .waiting c rest⟩ =>
      (s.enter ⟨i, c.providerId, streams, s.clock, none⟩).put i
        (.invoked s.invocations.length c rest)
    | _ => s
  | .finish i outcome =>
    match s.calls[i]? with
    | some ⟨streams, _, .invoked k c rest⟩ =>
      (s.close k outcome).record R i k streams c rest outcome
    | _ => s
  | .abort i =>
    match s.calls[i]? with
    | some ⟨_, _, .invoked ..⟩ => s
    | _ => s.put i .done

/-- The time passes. -/
def wait (s : Routing V) (elapsed : ℚ≥0) : Routing V := { s with clock := s.clock + elapsed }

/-- The state after the acts, each with the time that passes before it, the latest first. -/
def after (R : ModelRouter) (start : Time) : List (ℚ≥0 × RouterAct V) → Routing V
  | [] => { clock := start }
  | (elapsed, a) :: past => ((after R start past).wait elapsed).step R a

/-- The invocation that an act begins: the provider and the time. -/
def begins (s : Routing V) : RouterAct V → Option (String × Time)
  | .acquire i =>
    match s.calls[i]? with
    | some ⟨_, _, .waiting c _⟩ => some (c.providerId, s.clock)
    | _ => none
  | _ => none

/-- The last invocations of the provider, as many as the threshold says, have all failed with a
    `ProviderError`, and the latest failure is recent. -/
def Tripped (R : ModelRouter) (s : Routing V) (providerId : String) (now : Time) : Prop :=
  ∃ last, last <:+ s.invocations.filter (fun v => v.providerId = providerId) ∧
    (last.length : Int) = R.circuitFailureThreshold ∧
    (∀ v ∈ last, ∃ t, v.ended = some (t, .failed)) ∧
    ∃ v ∈ last, ∃ t, v.ended = some (t, .failed) ∧ now - t < R.circuitResetSeconds

end Routing

end TracciaRuntime
