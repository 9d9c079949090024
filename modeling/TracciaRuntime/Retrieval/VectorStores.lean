/-
  Traccia Runtime formalization — what the vector stores share, and the pgvector table
  (`retrieval/vector_stores.py`).

  The rows of the table are listed in the order in which they were written.  `ingest` runs in one
  transaction: if it raises, the table stays as it was.
-/
import TracciaRuntime.Retrieval.Ingestion
import TracciaRuntime.Py.Result
import Mathlib.Data.Rat.Defs

namespace TracciaRuntime

open Py

variable {V : Type}

/-- `str(metadata.get("tenant_id", "default"))`. -/
def tenantText (str : V → String) (metadata : Dict String (MetaValue V)) : String :=
  match metadata.get "tenant_id" with
  | some (.text s) => s
  | some (.other v) => str v
  | none => "default"

/-! ## Embedding -/

/-- What a vector store is built with. -/
structure VectorStoreConfig (V : Type) where
  chunker : TextChunker := standardChunker
  embed : List String → Except Exn (List (List ℚ))
  dimensions : Nat
  str : V → String
  /-- what `json.dumps` of the metadata, or the database, raises for a chunk -/
  write : RetrievedDocument V → Except Exn Unit

namespace VectorStoreConfig

variable (cfg : VectorStoreConfig V)

/-- The loop of `_chunks_and_vectors`, after the texts of `batch` with their `characters`. -/
def embedLoop : (batch : List String) → (characters : Nat) → List String →
    Except Exn (List (List ℚ))
  | batch, _, [] => if batch = [] then .ok [] else cfg.embed batch
  | batch, characters, text :: texts =>
    if batch ≠ [] ∧ (batch.length ≥ 128 ∨ characters + text.length > 200000) then do
      let vectors ← cfg.embed batch
      let more ← embedLoop [text] text.length texts
      .ok (vectors ++ more)
    else embedLoop (batch ++ [text]) (characters + text.length) texts

/-- `_chunks_and_vectors`. -/
def chunksAndVectors (documents : List (SourceDocument V)) :
    Except Exn (List (RetrievedDocument V) × List (List ℚ)) := do
  let chunks := documents.flatMap cfg.chunker.chunk
  let vectors ← cfg.embedLoop [] 0 (chunks.map (·.text))
  if chunks.length ≠ vectors.length then
    .error (.valueError "embedder returned a different number of vectors than chunks")
  else .ok (chunks, vectors)

/-- `_validate_dimensions`. -/
def validateDimensions (vectors : List (List ℚ)) : Except Exn Unit :=
  match vectors.find? fun v => v.length ≠ cfg.dimensions with
  | some v => .error (.valueError (s!"embedding dimension mismatch: backend expects " ++
      s!"{cfg.dimensions}, embedder returned {v.length}"))
  | none => .ok ()

theorem chunksAndVectors_eq_ok {documents : List (SourceDocument V)}
    {chunks : List (RetrievedDocument V)} {vectors : List (List ℚ)}
    (h : cfg.chunksAndVectors documents = .ok (chunks, vectors)) :
    chunks = documents.flatMap cfg.chunker.chunk ∧ vectors.length = chunks.length := by
  obtain ⟨vectors', -, h⟩ := bind_eq_ok.1 h
  split_ifs at h with hlen
  cases h
  exact ⟨rfl, (not_not.1 hlen).symm⟩

end VectorStoreConfig

/-! ## The pgvector table -/

structure PgRow (V : Type) where
  tenantId : String
  chunkId : String
  documentId : String
  text : String
  source : String
  title : Option String
  uri : Option String
  chunkIndex : Nat
  metadata : Dict String (MetaValue V)
  embedding : List ℚ
  deriving DecidableEq

/-- The chunk of a row. -/
def PgRow.chunk (row : PgRow V) : RetrievedDocument V where
  id := row.chunkId
  documentId := some row.documentId
  text := row.text
  source := row.source
  title := row.title
  uri := row.uri
  chunkIndex := row.chunkIndex
  metadata := row.metadata

namespace PgVectorRetriever

variable (cfg : VectorStoreConfig V)

/-- The parameters of the `INSERT` for a chunk. -/
def row (c : RetrievedDocument V) (vector : List ℚ) : Except Exn (PgRow V) := do
  cfg.write c
  .ok {
    tenantId := tenantText cfg.str c.metadata
    chunkId := c.id
    documentId := c.documentOrId
    text := c.text
    source := c.source
    title := c.title
    uri := c.uri
    chunkIndex := c.chunkIndex
    metadata := c.metadata
    embedding := vector }

/-- `INSERT INTO …`; the tenant and the id of the chunk are the primary key. -/
def insert (rows : List (PgRow V)) (row : PgRow V) : Except Exn (List (PgRow V)) :=
  if ∃ r ∈ rows, r.tenantId = row.tenantId ∧ r.chunkId = row.chunkId then
    .error (.other "UniqueViolationError")
  else .ok (rows ++ [row])

/-- What is left of the table when the batch has deleted the documents of its chunks. -/
def kept (chunks : List (RetrievedDocument V)) (rows : List (PgRow V)) : List (PgRow V) :=
  let owners := chunks.map fun c => (tenantText cfg.str c.metadata, c.documentId)
  rows.filter fun r => (r.tenantId, some r.documentId) ∉ owners

/-- `ingest`. -/
def ingest (documents : List (SourceDocument V)) (rows : List (PgRow V)) :
    Except Exn (List (PgRow V) × Nat) := do
  let (chunks, vectors) ← cfg.chunksAndVectors documents
  cfg.validateDimensions vectors
  let rows := kept cfg chunks rows
  let new ← (chunks.zip vectors).mapM fun x => row cfg x.1 x.2
  let rows ← new.foldlM insert rows
  .ok (rows, chunks.length)

/-- `delete`. -/
def delete (tenantId documentId : String) (rows : List (PgRow V)) : List (PgRow V) × Nat :=
  let selects (r : PgRow V) : Bool := r.tenantId = tenantId && r.documentId = documentId
  (rows.filter fun r => !selects r, (rows.filter selects).length)

end PgVectorRetriever

end TracciaRuntime
