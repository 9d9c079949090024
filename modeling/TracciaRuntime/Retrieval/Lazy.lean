/-
  Traccia Runtime formalization — the tasks of an `InMemoryRetriever` (`retrieval/memory.py`).

  What a task does between two awaits is one step.  Nothing is awaited under `_lock`, so that
  no task ever waits for it; under `_ingest_lock` a task awaits the embedder with the documents
  that were pending.
-/
import TracciaRuntime.Retrieval.Memory
import TracciaRuntime.Machine.Moves

namespace TracciaRuntime

variable {V : Type}

/-- A retriever, and the task that has `_ingest_lock` with the documents it ingests. -/
structure LazyRetriever (V : Type) where
  store : InMemoryRetriever V := {}
  ingesting : Option (Nat × List (SourceDocument V)) := none
  deriving DecidableEq

inductive LazyStep (V : Type) where
  | addSource (document : SourceDocument V)
  | delete (tenantId documentId : String)
  /-- `retrieve` of task `t` gets `_ingest_lock` -/
  | begin (t : Nat)
  /-- the embedder returns -/
  | embedded (vectors : List (List ℚ))
  /-- the embedder raises an `Exception` -/
  | failed
  /-- task `t` is cancelled -/
  | cancelled (t : Nat)

namespace LazyRetriever

variable [DecidableEq V] (cfg : RetrieverConfig V)

/-- `except Exception` of `_ingest_pending`. -/
def restore (pending : List (SourceDocument V)) (s : LazyRetriever V) : LazyRetriever V :=
  { store := { s.store with pending := pending ++ s.store.pending } }

def step (s : LazyRetriever V) : LazyStep V → Option (LazyRetriever V)
  | .addSource document => some { s with store := s.store.addSource document }
  | .delete tenantId documentId =>
    some { s with store := (s.store.delete cfg tenantId documentId).1 }
  | .begin t =>
    if s.ingesting.isNone then
      let pending := s.store.pending
      let store := { s.store with pending := [] }
      -- without chunks `ingest` returns at once
      if pending.flatMap cfg.chunker.chunk = [] then some { s with store }
      else some { store, ingesting := some (t, pending) }
    else none
  | .embedded vectors =>
    match s.ingesting with
    | none => none
    | some (_, pending) =>
      let chunks := pending.flatMap cfg.chunker.chunk
      if vectors.length ≠ chunks.length then some (s.restore pending)
      else some { store := s.store.replace cfg chunks vectors }
  | .failed => s.ingesting.map fun i => s.restore i.2
  | .cancelled t =>
    match s.ingesting with
    | none => some s
    | some (u, _) => if u = t then some { s with ingesting := none } else some s

/-- A `retrieve` that nobody disturbs does what it does in a sequence of calls. -/
theorem retrieve_steps (t : Nat) (r : InMemoryRetriever V) (q : RetrievalQuery V) :
    Machine.Steps (step cfg) Machine.anything { store := r }
      { store := r.after cfg (.retrieve q) } := by
  unfold InMemoryRetriever.after InMemoryRetriever.retrieve InMemoryRetriever.ingestPending
  by_cases hp : r.pending = []
  · rw [if_pos hp]
  rw [if_neg hp]
  unfold InMemoryRetriever.ingest
  dsimp only
  have hbegin : ∀ s, step cfg { store := r } (.begin t) = some s →
      Machine.Steps (step cfg) Machine.anything { store := r } s :=
    fun s h => .single ⟨.begin t, trivial, h⟩
  by_cases hc : r.pending.flatMap cfg.chunker.chunk = []
  · rw [if_pos hc]
    exact hbegin _ (by simp [step, hc, Except.map])
  rw [if_neg hc]
  have hingest := hbegin { store := { r with pending := [] }, ingesting := some (t, r.pending) }
    (by simp [step, hc])
  cases he : cfg.embed ((r.pending.flatMap cfg.chunker.chunk).map (·.text)) with
  | error e =>
    exact hingest.tail ⟨.failed, trivial, by simp [step, restore, bind, Except.bind, Except.map]⟩
  | ok vectors =>
    refine hingest.tail ⟨.embedded vectors, trivial, ?_⟩
    dsimp only [step, bind, Except.bind]
    split_ifs with hlen
    · simp [restore, Except.map]
    · simp [Except.map]

end LazyRetriever

end TracciaRuntime
