/-
  Traccia Runtime formalization — the run stores (`persistence/memory.py`,
  `persistence/postgres.py`).

  Each definition is one atomic section of a store: the body of an
  `async with self._lock` block, or one SQL statement.  A run is kept with all
  the records it had before, newest first, each with the task that wrote it.
-/
import TracciaRuntime.Runtime.StateMachine

namespace TracciaRuntime

open Py

variable {V : Type}

/-- Which implementation of a store is configured. -/
inductive StoreKind where
  | inMemory | postgres
  deriving DecidableEq

/-- A persisted run record and the task that wrote it. -/
structure Saved (V : Type) where
  writer : Nat
  state : RunState V
  deriving DecidableEq

/-- The persisted record of a run, and the earlier ones. -/
structure History (V : Type) where
  current : Saved V
  past : List (Saved V) := []
  deriving DecidableEq

namespace History

def records (h : History V) : List (Saved V) := h.current :: h.past

def push (h : History V) (r : Saved V) : History V := ⟨r, h.records⟩

@[simp] theorem records_push (h : History V) (r : Saved V) : (h.push r).records = r :: h.records :=
  rfl

@[simp] theorem current_push (h : History V) (r : Saved V) : (h.push r).current = r := rfl

end History

abbrev Runs (V : Type) := Dict String (History V)

namespace Runs

/-- The persisted state of a run. -/
def state? (runs : Runs V) (id : String) : Option (RunState V) :=
  (runs.get id).map fun h => h.current.state

/-- `create`. -/
def create (kind : StoreKind) (runs : Runs V) (t : Nat) (s : RunState V) :
    Except Exn (Runs V) :=
  match runs.get s.id with
  | none => .ok (runs.set s.id ⟨⟨t, s⟩, []⟩)
  | some _ => .error (match kind with
    | .inMemory => .conflict (.runExists s.id)
    | .postgres => .other "UniqueViolationError")

/-- `get`. -/
def find (runs : Runs V) (id tenantId : String) : Option (RunState V) :=
  (runs.state? id).filter fun s => s.request.tenantId = tenantId

/-- The stored row that a `save` matches. -/
def matchesRow (kind : StoreKind) (s : RunState V) (expected : Nat) (h : History V) : Bool :=
  h.current.state.version = expected &&
    match kind with
    | .inMemory => true
    | .postgres => h.current.state.request.tenantId = s.request.tenantId

/-- `save`: the record is replaced if its version is the expected one. -/
def save (kind : StoreKind) (runs : Runs V) (t : Nat) (s : RunState V) (expected : Nat) :
    Except Exn (Runs V) :=
  match runs.get s.id with
  | none => .error (.conflict (.concurrentlyModified s.id))
  | some h =>
    if matchesRow kind s expected h then
      .ok (runs.set s.id (h.push ⟨t, { s with version := expected + 1 }⟩))
    else .error (.conflict (.concurrentlyModified s.id))

/-- `list_active`. -/
def listActive (runs : Runs V) (limit : Nat) : List (RunState V) :=
  let active := (runs.values.map fun h => h.current.state).filter fun s => !s.status.isTerminal
  (active.mergeSort fun a b => a.updatedAt ≤ b.updatedAt).take limit

/-- **What `save` can do**: it raises, or it replaces the record whose version
    is the expected one by the next version. -/
theorem save_ok {kind : StoreKind} {runs runs' : Runs V} {t : Nat} {s : RunState V} {v : Nat}
    (h : save kind runs t s v = .ok runs') :
    ∃ h₀, runs.get s.id = some h₀ ∧ h₀.current.state.version = v ∧
      runs' = runs.set s.id (h₀.push ⟨t, { s with version := v + 1 }⟩) := by
  unfold save at h
  split at h
  · cases h
  · rename_i h₀ hg
    split at h
    · rename_i hm
      cases h
      refine ⟨h₀, hg, ?_, rfl⟩
      simp only [matchesRow, Bool.and_eq_true, decide_eq_true_eq] at hm
      exact hm.1
    · cases h

/-- A save of the current version goes through. -/
theorem exists_save {runs : Runs V} {s : RunState V} {h : History V}
    (hget : runs.get s.id = some h) (ht : h.current.state.request.tenantId = s.request.tenantId)
    (kind : StoreKind) (t : Nat) :
    ∃ runs', save kind runs t s h.current.state.version = .ok runs' := by
  have hm : matchesRow kind s h.current.state.version h = true := by
    cases kind <;> simp [matchesRow, ht]
  simp only [save, hget, hm, if_true]
  exact ⟨_, rfl⟩

theorem create_ok {kind : StoreKind} {runs runs' : Runs V} {t : Nat} {s : RunState V}
    (h : create kind runs t s = .ok runs') :
    runs.get s.id = none ∧ runs' = runs.set s.id ⟨⟨t, s⟩, []⟩ := by
  unfold create at h
  split at h
  · rename_i hg; cases h; exact ⟨hg, rfl⟩
  · cases h

theorem find_eq_some {runs : Runs V} {id tenantId : String} {s : RunState V}
    (h : runs.find id tenantId = some s) :
    ∃ h₀, runs.get id = some h₀ ∧ h₀.current.state = s ∧ s.request.tenantId = tenantId := by
  simp only [find, state?, Option.filter_eq_some_iff, Option.map_eq_some_iff,
    decide_eq_true_eq] at h
  obtain ⟨⟨h₀, hg, hs⟩, ht⟩ := h
  exact ⟨h₀, hg, hs, ht⟩

/-- The listed runs are persisted and active. -/
theorem mem_listActive {runs : Runs V} {limit : Nat} {s : RunState V}
    (h : s ∈ runs.listActive limit) :
    ∃ id h₀, (id, h₀) ∈ runs ∧ h₀.current.state = s ∧ s.status.isTerminal = false := by
  have h := List.mem_of_mem_take h
  rw [List.mem_mergeSort, List.mem_filter, List.mem_map] at h
  obtain ⟨⟨h₀, hm, hs⟩, ht⟩ := h
  simp only [Dict.values, List.mem_map] at hm
  obtain ⟨⟨id, h₁⟩, hm, rfl⟩ := hm
  exact ⟨id, h₁, hm, hs, by simpa using ht⟩

end Runs

end TracciaRuntime
