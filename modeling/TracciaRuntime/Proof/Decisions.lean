/-
  Approvals are decided once.

  Any number of clients call `decide`, on the in-memory service or, from many processes, on the
  PostgreSQL table.  A decided item is never written again, since both services only write where
  the status is PENDING; and what an item records of its last writer tells the calls apart.

  * `Onward`: what decisions do to the items, whoever makes them;
  * `Decides`: what a call that returns leaves behind, for ever;
  * `decided_once`.
-/
import TracciaRuntime.Proof.Driver
import TracciaRuntime.Runtime.System
import TracciaRuntime.Async.Ended

namespace TracciaRuntime

open Py Async

variable {V : Type}

/-! ## The calls -/

/-- `PostgresApprovalService.decide`, as far as its comparison with the clock is concerned:
    `expires_at` has no type in `ApprovalRequest`, so that what is read back from the JSON can be
    a text, which Python does not compare with the clock. -/
def ApprovalService.decideStored (compared : Time → Time → Except Exn Unit)
    (approvalId tenantId : String) (decision : ApprovalStatus)
    (modified : Option (Dict String V)) : Task V (ApprovalRequest V) := do
  let item ← await (.approvalsGet approvalId tenantId)
  match item with
  | none => throw (.notFound "approval request not found")
  | some item => do
    Prog.raiseIf (item.status ≠ .pending) (.conflict .approvalDecided)
    let now ← await .utcNow
    Prog.lift (compared item.expiresAt now)
    if item.expiresAt ≤ now then do
      let _ ← await (.approvalsSave { item with status := .expired } .pending)
      throw (.conflict .approvalExpired)
    else do
      Prog.raiseIf (decision = .modified && modified.isNone)
        (.valueError "modified decision requires modified_parameters")
      let updated := { item with status := decision, modifiedParameters := modified }
      let saved ← await (.approvalsSave updated .pending)
      Prog.raiseIf (!saved) (.conflict .approvalConcurrentlyDecided)
      pure updated

/-- With times that compare this is `decidePostgres`. -/
theorem ApprovalService.decideStored_eq : ApprovalService.decideStored (V := V)
    (fun _ _ => .ok ()) = ApprovalService.decidePostgres := by
  rfl

/-- A call of `decide`. -/
structure DecideCall (V : Type) where
  approvalId : String
  tenantId : String
  decision : ApprovalStatus
  modified : Option (Dict String V) := none
  decides : decision = .approved ∨ decision = .rejected ∨ decision = .modified := by decide

theorem DecideCall.ne_pending (c : DecideCall V) : c.decision ≠ .pending := by
  rcases c.decides with h | h | h <;> simp [h]

/-- `decide`. -/
def DecideCall.task (cfg : Config V) (compared : Time → Time → Except Exn Unit)
    (c : DecideCall V) : Task V (ApprovalRequest V) :=
  match cfg.approvalStore with
  | .inMemory => await (.approvalsDecide c.approvalId c.tenantId c.decision c.modified)
  | .postgres =>
    ApprovalService.decideStored compared c.approvalId c.tenantId c.decision c.modified

/-- The clients: task `t` makes the call `calls t`, and returns with the time at which it has
    started. -/
def decisionSys (cfg : Config V) (compared : Time → Time → Except Exn Unit)
    (calls : Nat → DecideCall V) :
    Sys (Op.Resp (V := V)) Exn (World V) (Time × ApprovalRequest V) where
  toSem := cfg.sem
  allow _ _ _ _ := True
  enter w t p w' := t ∉ w.started ∧
    p = (do let approval ← (calls t).task cfg compared; pure (w.now, approval)) ∧
    w' = { w with started := insert t w.started }
  fin t _ w := { w with done := insert t w.done }
  kill w t w' := w' = { w with done := insert t w.done }

/-- Nobody decides yet. -/
def waitingPool (w : World V) : Pool (Op.Resp (V := V)) Exn (World V) (Time × ApprovalRequest V) :=
  ⟨w, fun _ => none⟩

/-! ## What decisions do to the items -/

namespace Deciding

variable {cfg : Config V} {t : Nat} {b : Bool} {w w₁ w' : World V}

/-- Every item is stored under its id. -/
def Filed (w : World V) : Prop := ∀ id i, w.approvals.get id = some i → i.request.id = id

/-- Time passes, expiries stay, and so does what is decided. -/
structure Onward (w w' : World V) : Prop where
  now : w.now ≤ w'.now
  expiry : ∀ id, (w'.approvals.get id).map (·.request.expiresAt) =
    (w.approvals.get id).map (·.request.expiresAt)
  stays : ∀ id i, w.approvals.get id = some i → i.request.status ≠ .pending →
    w'.approvals.get id = some i

theorem Onward.refl (w : World V) : Onward w w :=
  ⟨le_rfl, fun _ => rfl, fun _ _ h _ => h⟩

theorem Onward.trans (h₁ : Onward w w₁) (h₂ : Onward w₁ w') : Onward w w' where
  now := h₁.now.trans h₂.now
  expiry id := (h₂.expiry id).trans (h₁.expiry id)
  stays id i hi hs := h₂.stays id i (h₁.stays id i hi hs) hs

/-- The items are as they were. -/
theorem Onward.of_eq (hn : w.now ≤ w'.now) (h : w'.approvals = w.approvals) : Onward w w' :=
  ⟨hn, fun id => by rw [h], fun id i hi _ => by rw [h]; exact hi⟩

/-- A pending item has been replaced. -/
theorem Onward.of_set {id : String} {i : Item V} {request : ApprovalRequest V}
    (hn : w.now ≤ w'.now) (hi : w.approvals.get id = some i) (hp : i.request.status = .pending)
    (h : w'.approvals = w.approvals.set id ⟨request, some t⟩)
    (he : request.expiresAt = i.request.expiresAt) : Onward w w' := by
  refine ⟨hn, fun id' => ?_, fun id' j hj hs => ?_⟩
  · rw [h, Dict.get_set]
    split_ifs with hid
    · rw [hid, hi, Option.map_some, Option.map_some, he]
    · rfl
  · have hne : id' ≠ id := by
      rintro rfl
      rw [hi] at hj
      cases hj
      exact hs hp
    rw [h, Dict.get_set_ne hne, hj]

theorem Filed.of_set {id : String} {i : Item V} (hf : Filed w)
    (h : w'.approvals = w.approvals.set id i) (hid : i.request.id = id) : Filed w' := by
  intro id' j hj
  rw [h, Dict.get_set] at hj
  split_ifs at hj with heq
  · cases hj
    rw [hid, heq]
  · exact hf id' j hj

theorem Filed.of_eq (hf : Filed w) (h : w'.approvals = w.approvals) : Filed w' :=
  fun id i hi => hf id i (h ▸ hi)

/-! ## The operations -/

theorem now_of_effect {o : Op V} {c : o.Choice} {r : Except Exn o.Resp} (ho : o.isDecision = true)
    (h : w.effect cfg t o c = some (r, w')) : w.now ≤ w'.now := by
  cases o with
  | approvalsDecide | utcNow =>
    simp only [World.effect] at h
    split at h
    · cases h
    · rename_i hn
      cases h
      exact not_lt.1 hn
  | approvalsGet | approvalsSave => cases h; exact le_rfl
  | _ => cases ho

theorem now_of_act {o : Op V} {a : Act cfg.sem.Ans Exn o} {r : Except Exn o.Resp}
    (ho : o.isDecision = true) (h : cfg.sem.act t b w o a = some (r, w')) : w.now ≤ w'.now := by
  have htouch : ∀ w₁ : World V, (w₁.touch t o).now = w₁.now := by
    intro w₁
    cases o <;> rfl
  obtain ⟨C, ⟨c, hc⟩ | ⟨e, rfl, -, rfl | rfl | ⟨c, r', hc⟩⟩⟩ := Config.act_cases h
  · exact now_of_effect (w := w.flagged C) ho hc
  · exact le_rfl
  · rw [htouch]; exact le_rfl
  · exact now_of_effect (w := w.flagged C) ho hc

/-- What `decide` of the in-memory service returns, it has just stored. -/
theorem decide_returns {items items' : Approvals V} {now : Time} {id tenantId : String}
    {decision : ApprovalStatus} {modified : Option (Dict String V)} {x : ApprovalRequest V}
    (h : items.decide t now id tenantId decision modified = (.ok x, items')) :
    now < x.expiresAt ∧ x.status = decision ∧ x.modifiedParameters = modified ∧
      items'.get id = some ⟨x, some t⟩ := by
  unfold Approvals.decide at h
  split at h
  · cases h
  · split at h
    · cases h
    · split at h
      · cases h
      · rename_i hexpiry
        split at h
        · cases h
        · cases h
          exact ⟨not_le.1 hexpiry, rfl, rfl, Dict.get_set_self _ _ _⟩

/-- The atomic decision of the in-memory service. -/
theorem act_decide {id tenantId : String} {decision : ApprovalStatus}
    {modified : Option (Dict String V)}
    {a : Act cfg.sem.Ans Exn (.approvalsDecide id tenantId decision modified)}
    {r : Except Exn (ApprovalRequest V)} (hf : Filed w)
    (h : cfg.sem.act t b w (.approvalsDecide id tenantId decision modified) a = some (r, w')) :
    Filed w' ∧ Onward w w' ∧ ∀ x, r = .ok x → w.now < x.expiresAt ∧ x.status = decision ∧
      x.modifiedParameters = modified ∧ w'.approvals.get id = some ⟨x, some t⟩ := by
  have hn := now_of_act rfl h
  have hitems : Filed w' ∧ Onward w w' := by
    rcases act_approvalsDecide h with ⟨he, -⟩ | ⟨i, hi, hp, ⟨-, he⟩ | ⟨-, he, -⟩⟩
    · exact ⟨hf.of_eq he, .of_eq hn he⟩
    · exact ⟨hf.of_set he (hf id i hi), .of_set hn hi hp he rfl⟩
    · exact ⟨hf.of_set he (hf id i hi), .of_set hn hi hp he rfl⟩
  refine ⟨hitems.1, hitems.2, fun x hx => ?_⟩
  obtain ⟨C, ⟨c, hc⟩ | ⟨e, rfl, -, -⟩⟩ := Config.act_cases h
  · simp only [World.effect] at hc
    split at hc
    · cases hc
    · rename_i hnow
      obtain ⟨hr, rfl⟩ := Prod.mk.inj (Option.some.inj hc)
      obtain ⟨hexpiry, hrest⟩ := decide_returns (t := t) (Prod.ext (hr.trans hx) rfl)
      exact ⟨lt_of_le_of_lt (not_lt.1 hnow) hexpiry, hrest⟩
  · cases hx

/-- The conditional update of the PostgreSQL service, with an item that has been read from
    `w`. -/
theorem act_save {x : ApprovalRequest V} {i : Item V}
    {a : Act cfg.sem.Ans Exn (.approvalsSave x .pending)} {r : Except Exn Bool} (hf : Filed w₁)
    (h : cfg.sem.act t b w₁ (.approvalsSave x .pending) a = some (r, w')) (on : Onward w w₁)
    (hi : w.approvals.get x.id = some i) (he : x.expiresAt = i.request.expiresAt) :
    Filed w' ∧ Onward w₁ w' ∧ (r = .ok true → w'.approvals.get x.id = some ⟨x, some t⟩) := by
  have hn := now_of_act rfl h
  rcases act_approvalsSave h with ⟨heq, hne⟩ | ⟨j, hj, hp, heq, -⟩
  · exact ⟨hf.of_eq heq, .of_eq hn heq, fun hr => absurd hr hne⟩
  · have hexpiry : x.expiresAt = j.request.expiresAt := by
      have hsame := on.expiry x.id
      rw [hi, hj] at hsame
      exact he.trans (Option.some.inj hsame).symm
    refine ⟨hf.of_set heq rfl, .of_set hn hj hp heq hexpiry, fun _ => ?_⟩
    rw [heq, Dict.get_set_self]

/-! ## The contract of the clients -/

/-- The other clients decide too. -/
def deciding : Contract (World V) where
  valid := Filed
  rely _ := Onward
  refl _ := Onward.refl
  trans := Onward.trans

/-- The item of the call is as the call, which has started at this time, has returned it. -/
structure Returned (c : DecideCall V) (t : Nat) (started : Time) (approval : ApprovalRequest V)
    (w : World V) : Prop where
  stored : w.approvals.get c.approvalId = some ⟨approval, some t⟩
  status : approval.status = c.decision
  modified : approval.modifiedParameters = c.modified
  unexpired : started < approval.expiresAt

theorem Returned.onward {c : DecideCall V} {started : Time} {approval : ApprovalRequest V}
    (h : Returned c t started approval w) (on : Onward w w') :
    Returned c t started approval w' := by
  refine ⟨on.stays _ _ h.stored ?_, h.status, h.modified, h.unexpired⟩
  rw [h.status]
  exact c.ne_pending

/-- The client is safe and returns what is stored. -/
abbrev Decides (cfg : Config V) (c : DecideCall V) (t : Nat) (started : Time)
    (p : Task V (ApprovalRequest V)) (w : World V) : Prop :=
  Safe cfg.sem (fun _ _ _ _ => True) deciding t
    (fun x w' => ∀ approval, x = .ok approval → Returned c t started approval w') p w

variable {c : DecideCall V} {started : Time} {compared : Time → Time → Except Exn Unit}

theorem returned_error {e : Exn} : ∀ approval, (.error e : Except Exn (ApprovalRequest V)) =
    .ok approval → Returned c t started approval w :=
  fun _ h => by cases h

theorem decideMemory_decides (hs : started ≤ w.now) : Decides cfg c t started
    (await (.approvalsDecide c.approvalId c.tenantId c.decision c.modified)) w := by
  refine Safe.call (o := Op.approvalsDecide ..) fun w₁ hr hf a _ r w₂ hact => ?_
  obtain ⟨hf₂, on, hreturned⟩ := act_decide hf hact
  refine ⟨hf₂, fun _ _ => on, fun approval hx => ?_⟩
  obtain ⟨hexpiry, hstatus, hmodified, hstored⟩ := hreturned approval hx
  have hstarted : started ≤ w₁.now := hs.trans (show Onward w w₁ from hr).now
  exact ⟨hstored, hstatus, hmodified, lt_of_le_of_lt hstarted hexpiry⟩

theorem decideStored_decides (hs : started ≤ w.now) : Decides cfg c t started
    (ApprovalService.decideStored compared c.approvalId c.tenantId c.decision c.modified) w := by
  refine Safe.bind (Safe.call fun w₁ hr hf a _ r w₂ hact => ?_)
  have happrovals : w₂.approvals = w₁.approvals := (Config.act_frame hact).approvals rfl
  have on₁ : Onward w w₁ := hr
  have on₂ : Onward w₁ w₂ := .of_eq (now_of_act rfl hact) happrovals
  refine ⟨hf.of_eq happrovals, fun _ _ => on₂, ?_⟩
  cases r with
  | error e => exact returned_error
  | ok found =>
    obtain ⟨_, -, hx⟩ := done_of_act_ok hact
    cases hx
    cases hfound : w₁.approvals.find c.approvalId c.tenantId with
    | none => exact Safe.throw returned_error
    | some item =>
      -- the item that has been read is stored under the id of the call
      obtain ⟨i, hi, rfl⟩ : ∃ i, w₁.approvals.get c.approvalId = some i ∧ i.request = item := by
        simp only [Approvals.find, Option.map_eq_some_iff] at hfound
        obtain ⟨i, hi, rfl⟩ := hfound
        exact ⟨i, (Option.filter_eq_some_iff.1 hi).1, rfl⟩
      have hid : i.request.id = c.approvalId := hf _ _ hi
      refine Safe.bind (Safe.raiseIf (fun _ => returned_error) fun _ => ?_)
      refine Safe.bind (Safe.call fun w₃ hr₃ hf₃ a _ r w₄ hact₄ => ?_)
      have hsame₄ : w₄.approvals = w₃.approvals := (Config.act_frame hact₄).approvals rfl
      have on₃ : Onward w₁ w₃ := hr₃
      have on₄ : Onward w₃ w₄ := .of_eq (now_of_act rfl hact₄) hsame₄
      refine ⟨hf₃.of_eq hsame₄, fun _ _ => on₄, ?_⟩
      cases r with
      | error e => exact returned_error
      | ok now =>
        have hnow : started ≤ now := by
          obtain ⟨_, -, hclock⟩ := done_of_act_ok hact₄
          simp only [World.effect] at hclock
          split at hclock
          · cases hclock
          · rename_i hlater
            cases hclock
            exact hs.trans (on₁.now.trans (on₃.now.trans (not_lt.1 hlater)))
        refine Safe.bind (Safe.lift ?_)
        cases compared i.request.expiresAt now with
        | error e => exact returned_error
        | ok u =>
          dsimp only
          split
          · refine Safe.bind (Safe.call fun w₅ hr₅ hf₅ a _ r w₆ hact₆ => ?_)
            obtain ⟨hf₆, on₆, -⟩ := act_save hf₅ hact₆ ((on₃.trans on₄).trans hr₅) (hid.symm ▸ hi) rfl
            refine ⟨hf₆, fun _ _ => on₆, ?_⟩
            cases r with
            | error e => exact returned_error
            | ok saved => exact Safe.throw returned_error
          · rename_i hexpiry
            refine Safe.bind (Safe.raiseIf (fun _ => returned_error) fun _ => ?_)
            refine Safe.bind (Safe.call fun w₅ hr₅ hf₅ a _ r w₆ hact₆ => ?_)
            obtain ⟨hf₆, on₆, hsaved⟩ :=
              act_save hf₅ hact₆ ((on₃.trans on₄).trans hr₅) (hid.symm ▸ hi) rfl
            refine ⟨hf₆, fun _ _ => on₆, ?_⟩
            cases r with
            | error e => exact returned_error
            | ok saved =>
              refine Safe.bind (Safe.raiseIf (fun _ => returned_error) fun htrue => ?_)
              refine Safe.pure fun approval hx => ?_
              cases hx
              have hstored := hsaved (by simpa using htrue)
              exact ⟨hid ▸ hstored, rfl, rfl, lt_of_le_of_lt hnow (not_le.1 hexpiry)⟩

theorem task_decides (hs : started ≤ w.now) : Decides cfg c t started (c.task cfg compared) w := by
  unfold DecideCall.task
  split
  · exact decideMemory_decides hs
  · exact decideStored_decides hs

variable {calls : Nat → DecideCall V}

/-- What the clients leave behind. -/
def Leaves (calls : Nat → DecideCall V) (t : Nat) (x : Except Exn (Time × ApprovalRequest V))
    (w : World V) : Prop :=
  ∀ started approval, x = .ok (started, approval) → Returned (calls t) t started approval w

theorem decisions_respect :
    Sys.Respects (decisionSys cfg compared calls) deciding (Leaves calls) where
  enter := by
    rintro w t p w' hv ⟨-, rfl, rfl⟩
    refine ⟨hv, fun _ _ => .of_eq le_rfl rfl, Safe.bind ((task_decides le_rfl).mono ?_)⟩
    rintro (e | approval) w₁ hx
    · intro started approval h
      cases h
    · intro started approval' h
      cases h
      exact hx approval rfl
  fin t x w hv _ := ⟨hv, fun _ _ => .of_eq le_rfl rfl⟩
  kill := by
    rintro w t w' hv rfl
    exact ⟨hv, fun _ _ => .of_eq le_rfl rfl⟩

theorem leaves_lasting :
    Sys.Lasting (decisionSys cfg compared calls) deciding (Leaves calls) where
  rely on h started approval hx := (h started approval hx).onward on
  fin _ h started approval hx := (h started approval hx).onward (.of_eq le_rfl rfl)

theorem decisionSys_once :
    Sys.Once (decisionSys cfg compared calls) fun w => {t | t ∈ w.started} where
  enter := by
    rintro w t p w' ⟨ht, -, rfl⟩
    exact ⟨ht, fun u hu => Finset.mem_insert.2 hu⟩
  run h u hu := by
    change u ∈ World.started _
    rw [(Config.act_frame h).started]
    exact hu
  fin := id
  kill := by
    rintro w t w' rfl
    exact fun u hu => hu

variable {w₀ : World V} {P : Pool (Op.Resp (V := V)) Exn (World V) (Time × ApprovalRequest V)}
  {l : List (Event (Op.Resp (V := V)) cfg.sem.Ans Exn (Time × ApprovalRequest V))}

/-- A run of clients goes onward. -/
theorem onward_of_trace (hf : Filed w₀)
    (h : (decisionSys cfg compared calls).Trace (waitingPool w₀) l P) : Onward w₀ P.world := by
  have hsafe : Sys.AllSafe (decisionSys cfg compared calls) deciding (Leaves calls)
      (waitingPool w₀) := ⟨hf, fun t p hp => by cases hp⟩
  exact Sys.safe_reach_rel decisions_respect Onward.refl Onward.trans (fun _ _ _ => id) hsafe
    (Sys.reach_iff_exists_trace.2 ⟨l, h⟩)

end Deciding

open Deciding

section
variable {cfg : Config V} {compared : Time → Time → Except Exn Unit} {calls : Nat → DecideCall V}
  {w₀ : World V} {P : Pool (Op.Resp (V := V)) Exn (World V) (Time × ApprovalRequest V)}
  {l : List (Event (Op.Resp (V := V)) cfg.sem.Ans Exn (Time × ApprovalRequest V))}

/-- **An approval is decided once.**  After a call that has returned, the item is as this call has
    decided; the call has started before the item expired, and every other call on it raises. -/
theorem decided_once (hf : Filed w₀)
    (h : (decisionSys cfg compared calls).Trace (waitingPool w₀) l P) {t : Nat} {started : Time}
    {approval : ApprovalRequest V} (he : .ended t (.ok (started, approval)) ∈ l) :
    (∃ i, P.world.approvals.get (calls t).approvalId = some i ∧
      i.request.status = (calls t).decision ∧
      i.request.modifiedParameters = (calls t).modified) ∧
    (∃ i, w₀.approvals.get (calls t).approvalId = some i ∧ started < i.request.expiresAt) ∧
    ∀ u x, u ≠ t → (calls u).approvalId = (calls t).approvalId → .ended u x ∈ l →
      ∃ e, x = .error e := by
  have hv : deciding.valid (waitingPool w₀).world := hf
  have settled := h.settled decisions_respect leaves_lasting decisionSys_once (fun _ => rfl) hv
  have hreturned := settled t _ he started approval rfl
  refine ⟨⟨_, hreturned.stored, hreturned.status, hreturned.modified⟩, ?_, ?_⟩
  · -- the expiry has not changed since the beginning
    have hexpiry := (onward_of_trace hf h).expiry (calls t).approvalId
    rw [hreturned.stored, Option.map_some] at hexpiry
    obtain ⟨i, hi, heq⟩ := Option.map_eq_some_iff.1 hexpiry.symm
    exact ⟨i, hi, heq.symm ▸ hreturned.unexpired⟩
  · rintro u (e | ⟨started', approval'⟩) hne hid hu
    · exact ⟨e, rfl⟩
    · -- an item has one last writer
      have hstored := (settled u _ hu started' approval' rfl).stored
      rw [hid, hreturned.stored] at hstored
      cases hstored
      exact absurd rfl hne

end

namespace Deciding.Two

/-- A request that expires at time 10. -/
def asked : ApprovalRequest String :=
  { id := "approval", runId := "run", stepId := "step", tenantId := "tenant"
    proposedAction := "send", sideEffectSummary := "", redactedParameters := [], risk := "high"
    expiresAt := 10 }

def world : World String := { approvals := [("approval", ⟨asked, none⟩)] }

/-- The first client approves, the others reject. -/
def calls (t : Nat) : DecideCall String where
  approvalId := "approval"
  tenantId := "tenant"
  decision := if t = 0 then .approved else .rejected
  decides := by split <;> simp

def cfg : Config String := { Sample.sendCfg with approvalStore := .postgres }

/-- The clients in the obliging environment. -/
def player : Player (decisionSys cfg (fun _ _ => .ok ()) calls) where
  spawn w t := if t ∈ w.started then none
    else some (do
      let approval ← (calls t).task cfg fun _ _ => .ok ()
      pure (w.now, approval), { w with started := insert t w.started })
  enter := by
    intro w t p w' h
    split at h
    · cases h
    · rename_i ht
      cases h
      exact ⟨ht, rfl, rfl⟩
  ok _ _ _ _ := true
  allow _ := trivial

end Deciding.Two

/-- Two clients read the item before one of them decides. -/
theorem decided_once_two : ∃ l P started approval,
    (decisionSys Two.cfg (fun _ _ => .ok ()) Two.calls).Trace (waitingPool Two.world) l P ∧
      .ended 0 (.ok (started, approval)) ∈ l ∧
      (∃ i, P.world.approvals.get "approval" = some i ∧ i.request.status = .approved ∧
        i.request.modifiedParameters = none) ∧
      (∃ i, Two.world.approvals.get "approval" = some i ∧ started < i.request.expiresAt) ∧
      ∀ u x, u ≠ 0 → .ended u x ∈ l → ∃ e, x = .error e := by
  obtain ⟨l, P, hP, h⟩ := Two.player.exists_trace
    (.enter 0 :: .enter 1 :: Sample.obliges 0 2 ++ Sample.obliges 1 2 ++ Sample.obliges 0 1)
    (waitingPool Two.world) (fun x => lastEnds 0 Except.isOk x.1) (a := true) (by decide +kernel)
  obtain ⟨x, he, hx⟩ := exists_of_lastEnds h
  cases x with
  | error e => cases hx
  | ok x =>
    have hf : Filed Two.world := by
      intro id i hi
      simp only [Two.world, Dict.get] at hi
      split_ifs at hi with hid
      cases hi
      exact hid
    obtain ⟨hstored, hexpiry, hothers⟩ := decided_once hf hP he
    exact ⟨l, P, x.1, x.2, hP, he, hstored, hexpiry, fun u y hne hu => hothers u y hne rfl hu⟩

end TracciaRuntime
