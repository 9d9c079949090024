/-
  Traccia Runtime formalization — concurrent calls of `get_or_set_json`.

  Any number of tasks call `get_or_set_json` of the cache service of their
  process.  A loader is code of the caller: it may await anything but the
  private table and futures of the service, and it may itself call
  `get_or_set_json`, as the router does for the capabilities of a model.

  * `CacheCall`: the arguments of a call, with its loader;
  * `Client S p`: `p` reaches the service only through calls in `S`;
  * `cacheSys`: the calls as a system of tasks;
  * `CacheCall.Ended`, `InFlight`, `Produced`: calls and loaders, told from what a
    task has awaited.
-/
import TracciaRuntime.Async.Trace
import TracciaRuntime.Cache.Service

namespace TracciaRuntime

open Py Async

variable {V : Type}

/-- A call of `get_or_set_json` of a service with these policies; the loader may change the
    caller's `state`. -/
structure CacheCall (V : Type) where
  policies : Dict String CachePolicy
  policyName : String
  ns : String
  material : V
  context : CacheContext
  {σ : Type}
  state : σ
  loader : Task V (V × σ)
  tags : List String := []

/-- The operations on the table and the futures of the service. -/
def Op.isFlight : Op V → Bool
  | inflightJoin _ | futureWait _ | futureSet .. | inflightPop _ => true
  | _ => false

section
variable (lib : Lib V)

namespace CacheCall

def enabled (c : CacheCall V) : Bool := (CacheService.policy c.policies c.policyName).enabled

def key (c : CacheCall V) : Except Exn String :=
  CacheService.key lib c.policyName c.ns c.material c.context
    (CacheService.policy c.policies c.policyName)

def task (c : CacheCall V) : Task V ((V × Bool) × c.σ) :=
  CacheService.getOrSetJson lib c.policies c.policyName c.ns c.material c.context c.state
    c.loader c.tags

/-- The call in a task of its own. -/
def run (c : CacheCall V) : Task V (V × Bool) := do
  let x ← c.task lib
  pure x.1

end CacheCall

/-- The program only awaits operations in `P` and the calls in `S`.  It only raises exceptions in
    `X` and those that it has received; loaders only raise exceptions in `X₀` and those that they
    have received. -/
inductive ClientOf (P : Op V → Prop) (S : CacheCall V → Prop) (X₀ : Exn → Prop) :
    (Exn → Prop) → {α : Type} → Task V α → Prop
  | pure {X : Exn → Prop} {α : Type} (a : α) : ClientOf P S X₀ X (.pure a)
  | raise {X : Exn → Prop} {α : Type} {e : Exn} : X e → ClientOf P S X₀ X (.raise e : Task V α)
  | await {X : Exn → Prop} {α : Type} {b : Bool} {o : Op V} {k : Except Exn o.Resp → Task V α} :
      P o → (∀ a, ClientOf P S X₀ X (k (.ok a))) →
      (∀ e, ClientOf P S X₀ (fun e' => X e' ∨ e' = e) (k (.error e))) →
      ClientOf P S X₀ X (.await b o k)
  | bind {X : Exn → Prop} {α β : Type} {p : Task V α} {f : α → Task V β} : ClientOf P S X₀ X p →
      (∀ a, ClientOf P S X₀ X (f a)) → ClientOf P S X₀ X (p >>= f)
  | handle {X : Exn → Prop} {α : Type} {p : Task V α} {f : Exn → Task V α} :
      ClientOf P S X₀ X p → (∀ e, ClientOf P S X₀ (fun e' => X e' ∨ e' = e) (f e)) →
      ClientOf P S X₀ X (tryCatch p f)
  | timed {X : Exn → Prop} {α : Type} {p : Task V α} : ClientOf P S X₀ X p →
      ClientOf P S X₀ X p.timed
  | call {X : Exn → Prop} {c : CacheCall V} : S c → ClientOf P S X₀ X₀ c.loader →
      ClientOf P S X₀ X (c.task lib)

/-- The program reaches the cache service only through the calls in `S`. -/
abbrev Client {α : Type} (S : CacheCall V → Prop) (p : Task V α) : Prop :=
  ClientOf lib (fun o => o.isFlight = false) S (fun _ => True) (fun _ => True) p

end

/-- The calls, each in a task of its own. -/
def cacheSys (cfg : Config V) (calls : Nat → CacheCall V) :
    Sys (Op.Resp (V := V)) Exn (World V) (V × Bool) where
  toSem := cfg.sem
  allow _ _ _ _ := True
  enter w t p w' := t ∉ w.started ∧ p = (calls t).run cfg.lib ∧
    w' = { w with started := insert t w.started }
  fin t _ w := { w with done := insert t w.done }
  kill _ _ _ := False

/-- No call has been made. -/
structure NoFlights (w : World V) : Prop where
  inflight : ∀ p, (w.procs p).inflight = []
  futures : w.futures = []

/-- What a task has awaited. -/
abbrev Awaits (V : Type) := Past (Op.Resp (V := V)) Exn

section
variable (lib : Lib V) (S : CacheCall V → Prop)

/-- The task has made the call, which has awaited `l` and ended with `x`. -/
def CacheCall.Ended (c : CacheCall V) (l : Awaits V) (x : Except Exn ((V × Bool) × c.σ))
    (h : Awaits V) : Prop :=
  (∃ h₁ h₃, h = h₃ ++ l ++ h₁) ∧ (c.task lib).After l (Prog.ofResult x)

/-- The task has become the owner of the future `f` under the key `k`, and the loader of one of
    the calls for that key has not ended since. -/
def InFlight (k : String) (f : Nat) (h : Awaits V) : Prop :=
  ∃ c, S c ∧ c.key lib = .ok k ∧ ∃ h₁ h₂, h = h₂ ++ ⟨.inflightJoin k, .ok (f, true)⟩ :: h₁ ∧
    ∃ q, c.loader.After h₂ q ∧ q.result = none

/-- The task has become the owner of the future `f` under the key `k`, and the loader of one of
    the calls for that key has then returned `v`. -/
def Produced (k : String) (f : Nat) (v : V) (h : Awaits V) : Prop :=
  ∃ c, S c ∧ c.key lib = .ok k ∧ ∃ h₁ h₂ h₃,
    h = h₃ ++ h₂ ++ ⟨.inflightJoin k, .ok (f, true)⟩ :: h₁ ∧
    ∃ s, c.loader.After h₂ (.pure (v, s))

end

end TracciaRuntime
