/-
  Traccia Runtime formalization — the approval stores (`approvals/service.py`).

  As in the other stores, each definition is one atomic section.  An item
  remembers the task that last changed its status.
-/
import TracciaRuntime.Types

namespace TracciaRuntime

open Py

variable {V : Type}

/-- A stored approval request, and the task whose `decide` changed it last. -/
structure Item (V : Type) where
  request : ApprovalRequest V
  decider : Option Nat := none
  deriving DecidableEq

abbrev Approvals (V : Type) := Dict String (Item V)

namespace Approvals

/-- `InMemoryApprovalService.decide` by task `t` at time `now`. -/
def decide (items : Approvals V) (t : Nat) (now : Time) (id tenantId : String)
    (decision : ApprovalStatus) (modified : Option (Dict String V)) :
    Except Exn (ApprovalRequest V) × Approvals V :=
  match (items.get id).filter fun i => i.request.tenantId = tenantId with
  | none => (.error (.notFound "approval request not found"), items)
  | some i =>
    if i.request.status ≠ .pending then (.error (.conflict .approvalDecided), items)
    else if i.request.expiresAt ≤ now then
      (.error (.conflict .approvalExpired),
        items.set id ⟨{ i.request with status := .expired }, some t⟩)
    else if decision = .modified ∧ modified = none then
      (.error (.valueError "modified decision requires modified_parameters"), items)
    else
      let request := { i.request with status := decision, modifiedParameters := modified }
      (.ok request, items.set id ⟨request, some t⟩)

/-- `get`. -/
def find (items : Approvals V) (id tenantId : String) : Option (ApprovalRequest V) :=
  ((items.get id).filter fun i => i.request.tenantId = tenantId).map (·.request)

/-- `UPDATE ... WHERE id=$2 AND tenant_id=$3 AND approval->>'status'=$4`; `true` is
    `UPDATE 1`. -/
def save (items : Approvals V) (t : Nat) (item : ApprovalRequest V) (expected : ApprovalStatus) :
    Bool × Approvals V :=
  match (items.get item.id).filter fun i =>
      i.request.tenantId = item.tenantId && i.request.status = expected with
  | some _ => (true, items.set item.id ⟨item, some t⟩)
  | none => (false, items)

/-- **What `decide` can do**: nothing, an expiry, or the decision. -/
theorem decide_cases {items items' : Approvals V} {t : Nat} {now : Time} {id tenantId : String}
    {decision : ApprovalStatus} {modified : Option (Dict String V)}
    {r : Except Exn (ApprovalRequest V)}
    (h : items.decide t now id tenantId decision modified = (r, items')) :
    (∃ e, r = .error e ∧ items' = items) ∨
    ∃ i, items.get id = some i ∧ i.request.status = .pending ∧
      ((∃ e, r = .error e ∧ items' = items.set id ⟨{ i.request with status := .expired }, some t⟩) ∨
        r = .ok { i.request with status := decision, modifiedParameters := modified } ∧
          items' = items.set id
            ⟨{ i.request with status := decision, modifiedParameters := modified }, some t⟩ ∧
          (decision = .modified → modified ≠ none)) := by
  unfold decide at h
  split at h
  · cases h; exact Or.inl ⟨_, rfl, rfl⟩
  · rename_i i hi
    have hget := (Option.filter_eq_some_iff.1 hi).1
    split at h
    · cases h; exact Or.inl ⟨_, rfl, rfl⟩
    · rename_i hp
      have hp : i.request.status = .pending := by simpa using hp
      split at h
      · cases h; exact Or.inr ⟨i, hget, hp, Or.inl ⟨_, rfl, rfl⟩⟩
      · split at h
        · cases h; exact Or.inl ⟨_, rfl, rfl⟩
        · rename_i hm
          cases h
          exact Or.inr ⟨i, hget, hp, Or.inr ⟨rfl, rfl, fun hd hn => hm ⟨hd, hn⟩⟩⟩

/-- `save` writes where the status is the expected one, or nothing. -/
theorem save_cases {items items' : Approvals V} {t : Nat} {item : ApprovalRequest V}
    {expected : ApprovalStatus} {saved : Bool}
    (h : items.save t item expected = (saved, items')) :
    saved = false ∧ items' = items ∨
    ∃ i, items.get item.id = some i ∧ i.request.status = expected ∧ saved = true ∧
      items' = items.set item.id ⟨item, some t⟩ := by
  unfold save at h
  split at h
  · rename_i i hi
    obtain ⟨hget, hc⟩ := Option.filter_eq_some_iff.1 hi
    simp only [Bool.and_eq_true, decide_eq_true_eq] at hc
    cases h; exact Or.inr ⟨i, hget, hc.2, rfl, rfl⟩
  · cases h; exact Or.inl ⟨rfl, rfl⟩

end Approvals

end TracciaRuntime
