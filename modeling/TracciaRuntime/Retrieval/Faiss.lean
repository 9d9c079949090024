/-
  Traccia Runtime formalization — `FaissRetriever` and its two files
  (`retrieval/vector_stores.py`).

  What a call does under the lock, up to the `to_thread`, is one step; the thread of `_persist`
  takes its own steps, whether its call still waits for it or not.  A file that has been opened
  for writing and not closed is torn.

  In `retrieve` the search of the index is `faiss`; the query is embedded first, and what follows
  is one step, which sees the records and the index as they are then.
-/
import TracciaRuntime.Retrieval.VectorStores
import TracciaRuntime.Machine.Moves
import TracciaRuntime.Context.Builder

namespace TracciaRuntime

open Py

variable {V : Type}

/-! ## Records -/

/-- A record: `_payload` of a chunk, with its vector. -/
structure FaissRecord (V : Type) where
  chunkId : String
  documentId : Option String
  text : String
  source : String
  title : Option String
  uri : Option String
  chunkIndex : Nat
  tenantId : String
  metadata : Dict String (MetaValue V)
  vector : List ℚ
  deriving DecidableEq

structure FaissConfig (V : Type) extends VectorStoreConfig V where
  /-- a row of `np.asarray(vectors, dtype="float32")` after `normalize_L2` -/
  normalized : List ℚ → List ℚ
  /-- what `json.loads` makes of `json.dumps` of a metadata, or what `json.dumps` raises -/
  json : Dict String (MetaValue V) → Except Exn (Dict String (MetaValue V))
  /-- `path` is set -/
  persistent : Bool := true

namespace FaissRetriever

variable (cfg : FaissConfig V)

/-- The record of a chunk. -/
def recordOf (c : RetrievedDocument V) (vector : List ℚ) : FaissRecord V where
  chunkId := c.id
  documentId := c.documentId
  text := c.text
  source := c.source
  title := c.title
  uri := c.uri
  chunkIndex := c.chunkIndex
  tenantId := tenantText cfg.str c.metadata
  metadata := c.metadata
  vector := vector

/-- `_rebuild`: the index of the records. -/
def rebuild (records : List (FaissRecord V)) : List (List ℚ) :=
  records.map fun r => cfg.normalized r.vector

/-- `json.dumps(self._records)`, as `json.loads` reads it. -/
def dumps (records : List (FaissRecord V)) : Except Exn (List (FaissRecord V)) :=
  records.mapM fun r => (cfg.json r.metadata).map fun m => { r with metadata := m }

/-- The records after `ingest`. -/
def ingest (documents : List (SourceDocument V)) (records : List (FaissRecord V)) :
    Except Exn (List (FaissRecord V)) := do
  let prepared ← cfg.chunksAndVectors documents
  cfg.validateDimensions prepared.2
  let owners := documents.map fun d => (tenantText cfg.str d.metadata, some d.id)
  let retained := records.filter fun r => ∀ o ∈ owners, o ≠ (r.tenantId, r.documentId)
  .ok (retained ++ (prepared.1.zip prepared.2).map fun x => recordOf cfg x.1 x.2)

/-- The records after `delete`. -/
def delete (tenantId documentId : String) (records : List (FaissRecord V)) :
    List (FaissRecord V) :=
  records.filter fun r => ¬(r.tenantId = tenantId ∧ r.documentId = some documentId)

end FaissRetriever

/-! ## Files -/

/-- A file; `torn` has been opened for writing and not closed. -/
inductive FaissFile (α : Type) where
  | absent
  | torn
  | whole (content : α)

/-- The thread of `_persist`, from `to_thread` on. -/
inductive Persist (V : Type) where
  | queued
  /-- `write_index` has opened the index file -/
  | indexing (index : List (List ℚ))
  | indexed
  /-- `json.dumps` has returned -/
  | dumped (records : List (FaissRecord V))
  /-- `write_text` has opened the metadata file -/
  | writing (records : List (FaissRecord V))

/-- A retriever, its files and its threads; `t` counts the calls. -/
structure FaissRetriever (V : Type) where
  records : List (FaissRecord V) := []
  index : List (List ℚ) := []
  indexFile : FaissFile (List (List ℚ)) := .absent
  metadataFile : FaissFile (List (FaissRecord V)) := .absent
  lock : Option Nat := none
  threads : Nat → Option (Persist V) := fun _ => none
  running : Bool := true

/-- A step of a deployment. -/
inductive FaissStep (V : Type) where
  | ingest (t : Nat) (documents : List (SourceDocument V))
  | delete (t : Nat) (tenantId documentId : String)
  /-- the thread of call `t` goes on -/
  | write (t : Nat)
  /-- call `t` returns -/
  | leave (t : Nat)
  | cancel (t : Nat)
  | crash
  /-- the retriever is built again -/
  | load

namespace FaissRetriever

variable (cfg : FaissConfig V)

/-- `_load`: the index and the records. -/
def load (s : FaissRetriever V) : Except Exn (List (List ℚ) × List (FaissRecord V)) :=
  if cfg.persistent then
    match s.indexFile, s.metadataFile with
    | .absent, _ | _, .absent => .ok ([], [])
    | .torn, _ => .error (.other "RuntimeError")
    | .whole _, .torn => .error (.other "JSONDecodeError")
    | .whole index, .whole records => .ok (index, records)
  else .ok ([], [])

/-- Call `t` has these records now, and hands them to its thread. -/
def rebuilt (t : Nat) (records : List (FaissRecord V)) (s : FaissRetriever V) :
    FaissRetriever V :=
  let s := { s with records, index := rebuild cfg records }
  if cfg.persistent then
    { s with lock := some t, threads := Function.update s.threads t (some .queued) }
  else s

/-- What the thread of call `t` does next. -/
def write (t : Nat) (s : FaissRetriever V) : Persist V → FaissRetriever V
  | .queued =>
    { s with indexFile := .torn
             threads := Function.update s.threads t (some (.indexing s.index)) }
  | .indexing index =>
    { s with indexFile := .whole index, threads := Function.update s.threads t (some .indexed) }
  | .indexed =>
    match dumps cfg s.records with
    | .ok records => { s with threads := Function.update s.threads t (some (.dumped records)) }
    | .error _ => { s with threads := Function.update s.threads t none }
  | .dumped records =>
    { s with metadataFile := .torn
             threads := Function.update s.threads t (some (.writing records)) }
  | .writing records =>
    { s with metadataFile := .whole records, threads := Function.update s.threads t none }

/-- The memory and the threads of the process are lost. -/
def crash (s : FaissRetriever V) : FaissRetriever V :=
  { indexFile := s.indexFile, metadataFile := s.metadataFile, running := false }

/-- A step, where it can be taken: the calls take the lock one by one. -/
def step (s : FaissRetriever V) : FaissStep V → Option (FaissRetriever V)
  | .ingest t documents =>
    if s.running ∧ s.lock = none ∧ (s.threads t).isNone then
      match ingest cfg documents s.records with
      | .ok records => some (rebuilt cfg t records s)
      | .error _ => some s
    else none
  | .delete t tenantId documentId =>
    if s.running ∧ s.lock = none ∧ (s.threads t).isNone then
      let records := delete tenantId documentId s.records
      if records.length < s.records.length then some (rebuilt cfg t records s)
      else some { s with records }
    else none
  | .write t => (s.threads t).map (write cfg t s)
  | .leave t =>
    if s.lock = some t ∧ (s.threads t).isNone then some { s with lock := none } else none
  | .cancel t =>
    -- a thread that has not begun never will
    if s.lock = some t then
      match s.threads t with
      | some .queued =>
        some { s with lock := none, threads := Function.update s.threads t none }
      | _ => some { s with lock := none }
    else none
  | .crash => some (crash s)
  | .load =>
    if s.running then none
    else match load cfg s with
      | .ok (index, records) => some { s with records, index, running := true }
      | .error _ => none

end FaissRetriever

/-! ## Search -/

/-- What `retrieve` uses of `faiss` and of Python. -/
structure FaissLib (V : Type) where
  /-- `IndexFlatIP.search` for one vector: the scores and the positions of the rows -/
  search : (index : List (List ℚ)) → (vector : List ℚ) → (count : Nat) → List (ℚ × Int)
  /-- the value is `None` -/
  isNone : V → Bool

namespace FaissRetriever

/-- `max(0.0, min(1.0, score))`. -/
def clamp (score : ℚ) : ℚ := max 0 (min 1 score)

/-- `_from_payload` of a record. -/
def fromPayload (r : FaissRecord V) (score : ℚ) : RetrievedDocument V where
  id := r.chunkId
  documentId := r.documentId.filter fun t => t ≠ ""
  text := r.text
  source := r.source
  title := r.title.filter fun t => t ≠ ""
  uri := r.uri.filter fun t => t ≠ ""
  chunkIndex := r.chunkIndex
  score := clamp score
  vectorScore := clamp score
  metadata := if r.metadata.get "tenant_id" = none then
      r.metadata.set "tenant_id" (.text r.tenantId) else r.metadata

variable [DecidableEq V] (cfg : FaissConfig V) (lib : FaissLib V)

instance (isNone : V → Bool) (filters metadata : Dict String (MetaValue V)) :
    Decidable (Admits isNone filters metadata) :=
  inferInstanceAs (Decidable (∀ f ∈ filters, metaValue isNone metadata f.1 = metaValue isNone [f] f.1))

/-- The loop of `retrieve` over the rows that are found. -/
def collect (q : RetrievalQuery V) (records : List (FaissRecord V)) :
    (results : List (RetrievedDocument V)) → List (ℚ × Int) →
    Except Exn (List (RetrievedDocument V))
  | results, [] => .ok results
  | results, (score, index) :: rows =>
    if index < 0 then collect q records results rows
    else match records[index.toNat]? with
      | none => .error (.other "IndexError")
      | some record =>
        if record.tenantId ≠ q.tenantId then collect q records results rows
        else if ¬ Admits lib.isNone q.filters record.metadata then collect q records results rows
        else
          let results := if clamp score ≥ q.minimumScore
            then results ++ [fromPayload record (clamp score)] else results
          if results.length ≥ q.limit then .ok results else collect q records results rows

/-- `retrieve`. -/
def retrieve (q : RetrievalQuery V) (s : FaissRetriever V) :
    Except Exn (List (RetrievedDocument V)) := do
  if q.mode ≠ .vector then
    .error (.valueError "this backend supports vector retrieval mode only")
  else do
    let embedded ← cfg.embed [q.text]
    cfg.validateDimensions embedded
    match embedded with
    | [] => .error (.other "IndexError")
    | vector :: _ =>
      let candidateCount := s.records.length
      if candidateCount = 0 then .ok []
      else
        let rows := lib.search s.index (cfg.normalized vector) candidateCount
        collect lib q s.records [] rows

end FaissRetriever

end TracciaRuntime
