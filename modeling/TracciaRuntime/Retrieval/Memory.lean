/-
  Traccia Runtime formalization — the in-memory retriever (`retrieval/memory.py`).
-/
import TracciaRuntime.Retrieval.Ingestion
import Mathlib.Data.Finset.Card
import Mathlib.Algebra.Order.Field.Rat

namespace TracciaRuntime

open Py

variable {V : Type}

inductive RetrievalMode where
  | vector | keyword | hybrid
  deriving DecidableEq

structure RetrievalQuery (V : Type) where
  text : String
  tenantId : String
  mode : RetrievalMode := .hybrid
  limit : Nat := 10
  filters : Dict String (MetaValue V) := []
  keywordWeight : ℚ := 2 / 5
  vectorWeight : ℚ := 3 / 5
  minimumScore : ℚ := 0
  deriving DecidableEq

/-- `normalized_weights`. -/
def RetrievalQuery.normalizedWeights (q : RetrievalQuery V) : ℚ × ℚ :=
  match q.mode with
  | .keyword => (1, 0)
  | .vector => (0, 1)
  | .hybrid =>
    let total := q.keywordWeight + q.vectorWeight
    if total = 0 then (1 / 2, 1 / 2) else (q.keywordWeight / total, q.vectorWeight / total)

/-- What an `InMemoryRetriever` is built with, and the functions on texts and numbers it uses. -/
structure RetrieverConfig (V : Type) where
  chunker : TextChunker := standardChunker
  embed : List String → Except Exn (List (List ℚ))
  rerank : Option (String → List (RetrievedDocument V) → Except Exn (List (RetrievedDocument V)))
    := none
  /-- `_cosine` -/
  cosine : List ℚ → List ℚ → ℚ
  /-- `set(_TOKEN.findall(text.lower()))` -/
  terms : String → Finset String
  /-- `" ".join(text.lower().split())` -/
  folded : String → String
  /-- the value is `None` -/
  isNone : V → Bool

structure InMemoryRetriever (V : Type) where
  documents : List (RetrievedDocument V) := []
  vectors : Dict String (List ℚ) := []
  pending : List (SourceDocument V) := []
  deriving DecidableEq

namespace InMemoryRetriever

variable [DecidableEq V] (cfg : RetrieverConfig V)

/-- `metadata.get(key)`; a value that is `None` counts as missing. -/
def metaGet (metadata : Dict String (MetaValue V)) (key : String) : Option (MetaValue V) :=
  (metadata.get key).filter fun
    | .text _ => true
    | .other v => !cfg.isNone v

/-- `metadata.get("tenant_id")` of a document and of an item. -/
def tenantOf (metadata : Dict String (MetaValue V)) : Option (MetaValue V) :=
  metaGet cfg metadata "tenant_id"

/-- The document and the tenant an item belongs to. -/
def owner (item : RetrievedDocument V) : Option String × Option (MetaValue V) :=
  (item.documentId, tenantOf cfg item.metadata)

/-- `for chunk_id in ids: self._vectors.pop(chunk_id, None)`. -/
def popVectors (ids : List String) (vectors : Dict String (List ℚ)) : Dict String (List ℚ) :=
  vectors.filter fun i => i.1 ∉ ids

/-- `self._vectors.update(…)`. -/
def updateVectors (new : List (String × List ℚ)) (vectors : Dict String (List ℚ)) :
    Dict String (List ℚ) :=
  new.foldl (fun d i => d.set i.1 i.2) vectors

/-- `add`. -/
def add (document : RetrievedDocument V) (r : InMemoryRetriever V) : InMemoryRetriever V :=
  { r with documents := r.documents ++ [document] }

/-- `add_source`. -/
def addSource (document : SourceDocument V) (r : InMemoryRetriever V) : InMemoryRetriever V :=
  { r with pending := r.pending ++ [document] }

/-- `stale_ids`: the ids of the items with an owner among the owners of the chunks. -/
def staleIds (documents chunks : List (RetrievedDocument V)) : List String :=
  let owners := chunks.map (owner cfg)
  (documents.filter fun item => owner cfg item ∈ owners).map (·.id)

/-- The part of `ingest` under the lock. -/
def replace (chunks : List (RetrievedDocument V)) (vectors : List (List ℚ))
    (r : InMemoryRetriever V) : InMemoryRetriever V :=
  let stale := staleIds cfg r.documents chunks
  { r with
    documents := r.documents.filter (fun item => item.id ∉ stale) ++ chunks
    vectors := updateVectors ((chunks.map (·.id)).zip vectors) (popVectors stale r.vectors) }

/-- `ingest`. -/
def ingest (documents : List (SourceDocument V)) (r : InMemoryRetriever V) :
    Except Exn (InMemoryRetriever V × Nat) :=
  let chunks := documents.flatMap cfg.chunker.chunk
  if chunks = [] then .ok (r, 0)
  else do
    let vectors ← cfg.embed (chunks.map (·.text))
    if vectors.length ≠ chunks.length then
      .error (.valueError "embedder returned a different number of vectors than input texts")
    else .ok (r.replace cfg chunks vectors, chunks.length)

/-- The document and the tenant are the ones to delete. -/
def selects (tenantId documentId : String) (id : Option String)
    (metadata : Dict String (MetaValue V)) : Bool :=
  id = some documentId && tenantOf cfg metadata = some (.text tenantId)

/-- `selected_ids`. -/
def selectedIds (tenantId documentId : String) (documents : List (RetrievedDocument V)) :
    List String :=
  ((documents.filter fun item =>
    selects cfg tenantId documentId item.documentId item.metadata).map (·.id)).dedup

/-- `delete`. -/
def delete (tenantId documentId : String) (r : InMemoryRetriever V) : InMemoryRetriever V × Nat :=
  let isPending (d : SourceDocument V) : Bool :=
    selects cfg tenantId documentId (some d.id) d.metadata
  let ids := selectedIds cfg tenantId documentId r.documents
  ({ documents := r.documents.filter fun item => item.id ∉ ids
     vectors := popVectors ids r.vectors
     pending := r.pending.filter fun d => !isPending d },
    (r.pending.filter isPending).length + ids.length)

/-- `_ingest_pending`; the pending documents are put back if it fails. -/
def ingestPending (r : InMemoryRetriever V) : Except Exn (InMemoryRetriever V) :=
  if r.pending = [] then .ok r
  else (ingest cfg r.pending { r with pending := [] }).map (·.1)

/-- The document passes the tenant check and the filters. -/
def visible (q : RetrievalQuery V) (d : RetrievedDocument V) : Bool :=
  (tenantOf cfg d.metadata = none || tenantOf cfg d.metadata = some (.text q.tenantId)) &&
    q.filters.all fun f => metaGet cfg d.metadata f.1 = metaGet cfg [f] f.1

/-- The document with its scores, if they are high enough. -/
def scored (q : RetrievalQuery V) (queryVector : List ℚ) (r : InMemoryRetriever V)
    (d : RetrievedDocument V) : Option (RetrievedDocument V) :=
  let queryTerms := cfg.terms q.text
  let words := cfg.terms d.text
  let keywordScore : ℚ := (queryTerms ∩ words).card / max 1 (queryTerms ∪ words).card
  let vectorScore := max 0 (cfg.cosine queryVector ((r.vectors.get d.id).getD []))
  let score := q.normalizedWeights.1 * keywordScore + q.normalizedWeights.2 * vectorScore
  if score ≥ q.minimumScore ∧ (score > 0 ∨ strip q.text = "") then
    some { d with score := min 1 score, keywordScore, vectorScore }
  else none

/-- `_deduplicate`. -/
def deduplicate (documents : List (RetrievedDocument V)) : List (RetrievedDocument V) :=
  (documents.foldl (fun (selected : Dict (String × String) (RetrievedDocument V)) d =>
    let key := (d.source, cfg.folded d.text)
    match selected.get key with
    | none => selected.set key d
    | some existing => if d.score > existing.score then selected.set key d else selected)
    ([] : Dict (String × String) (RetrievedDocument V))).values

/-- The order of `key=lambda item: (-item.score, item.id)`. -/
def ranksBefore (a b : RetrievedDocument V) : Bool :=
  decide (b.score < a.score) || (a.score = b.score && decide (a.id ≤ b.id))

/-- The part of `retrieve` after the pending documents. -/
def answer (q : RetrievalQuery V) (r : InMemoryRetriever V) :
    Except Exn (List (RetrievedDocument V)) := do
  let queryVector ← if q.mode = .keyword then .ok [] else
    (cfg.embed [q.text]).map fun embedded => embedded.headD []
  let results := (r.documents.filter (visible cfg q)).filterMap (scored cfg q queryVector r)
  let ranked := (deduplicate cfg results).mergeSort ranksBefore
  let ranked ← match cfg.rerank with
    | some rerank => rerank q.text ranked
    | none => .ok ranked
  .ok (ranked.take q.limit)

/-- `retrieve`. -/
def retrieve (q : RetrievalQuery V) (r : InMemoryRetriever V) :
    InMemoryRetriever V × Except Exn (List (RetrievedDocument V)) :=
  match r.ingestPending cfg with
  | .error e => (r, .error e)
  | .ok r => (r, r.answer cfg q)

end InMemoryRetriever

/-- A call on the retriever. -/
inductive RetrieverCall (V : Type) where
  | ingest (documents : List (SourceDocument V))
  | delete (tenantId documentId : String)
  | retrieve (q : RetrievalQuery V)
  | add (document : RetrievedDocument V)
  | addSource (document : SourceDocument V)
  deriving DecidableEq

namespace InMemoryRetriever

variable [DecidableEq V] (cfg : RetrieverConfig V)

/-- The retriever after a call. -/
def after (r : InMemoryRetriever V) : RetrieverCall V → InMemoryRetriever V
  | .ingest documents =>
    match r.ingest cfg documents with
    | .ok (r', _) => r'
    | .error _ => r
  | .delete tenantId documentId => (r.delete cfg tenantId documentId).1
  | .retrieve q => (r.retrieve cfg q).1
  | .add document => r.add document
  | .addSource document => r.addSource document

/-- What the queries of a tenant return in a sequence of calls. -/
def answers (tenantId : String) : InMemoryRetriever V → List (RetrieverCall V) →
    List (Except Exn (List (RetrievedDocument V)))
  | _, [] => []
  | r, c :: calls =>
    (match c with
      | .retrieve q => if q.tenantId = tenantId then [(r.retrieve cfg q).2] else []
      | _ => []) ++ answers tenantId (r.after cfg c) calls

end InMemoryRetriever

end TracciaRuntime
