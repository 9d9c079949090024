/-
  Traccia Runtime formalization — documents and their chunks
  (`retrieval/contracts.py`, `retrieval/ingestion.py`), and the point ids of
  `retrieval/vector_stores.py`.
-/
import TracciaRuntime.Types
import TracciaRuntime.Text.Marks

namespace TracciaRuntime

open Py

variable {V : Type}

/-- A value of a document's metadata: a text, or another value. -/
inductive MetaValue (V : Type) where
  | text (s : String)
  | other (v : V)
  deriving DecidableEq

structure SourceDocument (V : Type) where
  id : String
  text : String
  source : String
  title : Option String := none
  uri : Option String := none
  metadata : Dict String (MetaValue V) := []
  deriving DecidableEq

structure RetrievedDocument (V : Type) where
  id : String
  text : String
  source : String
  score : ℚ := 0
  documentId : Option String := none
  title : Option String := none
  uri : Option String := none
  chunkIndex : Nat := 0
  keywordScore : ℚ := 0
  vectorScore : ℚ := 0
  metadata : Dict String (MetaValue V) := []
  deriving DecidableEq

/-- `metadata.get("tenant_id")`. -/
def SourceDocument.tenantId (d : SourceDocument V) : Option (MetaValue V) :=
  d.metadata.get "tenant_id"

def RetrievedDocument.tenantId (d : RetrievedDocument V) : Option (MetaValue V) :=
  d.metadata.get "tenant_id"

/-- `document_id or id`. -/
def RetrievedDocument.documentOrId (d : RetrievedDocument V) : String :=
  match d.documentId with
  | some i => if i = "" then d.id else i
  | none => d.id

/-! ## Chunks -/

/-- `s.split()`. -/
def splitWords (s : List Char) : List (List Char) :=
  (s.splitOnP isSpace).filter fun word => word ≠ []

/-- `s.rfind(" ", lo, hi)`. -/
def rfindSpace (s : List Char) (lo hi : Nat) : Option Nat :=
  ((List.range' lo (hi - lo)).filter fun i => s[i]? = some ' ').getLast?

structure TextChunker where
  chunkSize : Nat := 1200
  chunkOverlap : Nat := 200
  size_ge : 64 ≤ chunkSize := by decide
  overlap_lt : chunkOverlap < chunkSize := by decide

/-- `TextChunker()`. -/
def standardChunker : TextChunker := {}

namespace TextChunker
variable (chunker : TextChunker)

/-- Where the chunk that begins at `start` ends. -/
def chunkEnd (text : List Char) (start : Nat) : Nat :=
  let hardEnd := min text.length (start + chunker.chunkSize)
  if hardEnd < text.length then
    match rfindSpace text (start + chunker.chunkSize / 2) hardEnd with
    | some boundary => if boundary > start then boundary else hardEnd
    | none => hardEnd
  else hardEnd

/-- The `while` loop of `chunk`; `start` grows in every turn, so that the letters bound the
    turns. -/
def chunkLoop (document : SourceDocument V) (text : List Char) :
    (turns start index : Nat) → List (RetrievedDocument V)
  | 0, _, _ => []
  | turns + 1, start, index =>
    if start < text.length then
      let last := chunker.chunkEnd text start
      let chunkText := strip (String.ofList ((text.take last).drop start))
      let next := max (start + 1) (last - chunker.chunkOverlap)
      let rest (index : Nat) := if last ≥ text.length then []
        else chunkLoop document text turns next index
      if chunkText = "" then rest index
      else {
          id := document.id ++ ":" ++ toString index
          documentId := some document.id
          text := chunkText
          source := document.source
          title := document.title
          uri := document.uri
          chunkIndex := index
          metadata := document.metadata } :: rest (index + 1)
    else []

/-- `chunk`. -/
def chunk (document : SourceDocument V) : List (RetrievedDocument V) :=
  let text := [' '].intercalate (splitWords document.text.toList)
  chunker.chunkLoop document text text.length 0 0

/-- The turns of the loop are no bound. -/
theorem chunkLoop_turns {document : SourceDocument V} {text : List Char} {turns start index : Nat}
    (h : text.length ≤ turns + start) :
    chunker.chunkLoop document text turns start index =
      chunker.chunkLoop document text (turns + 1) start index := by
  induction turns generalizing start index with
  | zero =>
    rw [chunkLoop, chunkLoop, if_neg (by omega)]
  | succ turns ih =>
    have next : ∀ last i, chunker.chunkLoop document text turns (max (start + 1) last) i =
        chunker.chunkLoop document text (turns + 1) (max (start + 1) last) i :=
      fun last i => ih (by omega)
    rw [chunkLoop, chunkLoop]
    simp only [next]

/-- The chunk carries the id and the metadata of the document. -/
structure ChunkOf (document : SourceDocument V) (c : RetrievedDocument V) : Prop where
  documentId : c.documentId = some document.id
  metadata : c.metadata = document.metadata
  id : ∃ index : Nat, c.id = document.id ++ ":" ++ toString index

/-- A chunk of a document. -/
def chunkOf (document : SourceDocument V) (text : String) (index : Nat) : RetrievedDocument V where
  id := document.id ++ ":" ++ toString index
  documentId := some document.id
  text := text
  source := document.source
  title := document.title
  uri := document.uri
  chunkIndex := index
  metadata := document.metadata

theorem mem_chunkLoop {document : SourceDocument V} {c : RetrievedDocument V} {text : List Char}
    {turns start index : Nat} (h : c ∈ chunker.chunkLoop document text turns start index) :
    ∃ text index, c = chunkOf document text index := by
  induction turns generalizing start index with
  | zero => cases h
  | succ turns ih =>
    have rest : ∀ last next index, (c ∈ if last ≥ text.length then []
        else chunker.chunkLoop document text turns next index) →
          ∃ text index, c = chunkOf document text index := by
      intro last next index h
      split at h
      · cases h
      · exact ih h
    rw [chunkLoop] at h
    split at h
    · dsimp only at h
      split at h
      · exact rest _ _ _ h
      · rcases List.mem_cons.1 h with rfl | h
        · exact ⟨_, index, rfl⟩
        · exact rest _ _ _ h
    · cases h

theorem eq_of_mem_chunk {document : SourceDocument V} {c : RetrievedDocument V}
    (h : c ∈ chunker.chunk document) : ∃ text index, c = chunkOf document text index :=
  chunker.mem_chunkLoop h

/-- **The chunks of a document.** -/
theorem mem_chunk {document : SourceDocument V} {c : RetrievedDocument V}
    (h : c ∈ chunker.chunk document) : ChunkOf document c := by
  obtain ⟨text, index, rfl⟩ := chunker.eq_of_mem_chunk h
  exact ⟨rfl, rfl, index, rfl⟩

theorem chunkLoop_ids {document : SourceDocument V} {text : List Char} {turns start index : Nat} :
    (chunker.chunkLoop document text turns start index).map (·.id) =
      (List.range' index (chunker.chunkLoop document text turns start index).length).map fun i =>
        document.id ++ ":" ++ toString i := by
  induction turns generalizing start index with
  | zero => rfl
  | succ turns ih =>
    rw [chunkLoop]
    split_ifs with hstart
    · dsimp only
      split_ifs
      · rfl
      · exact ih
      · rfl
      · simp only [List.map_cons, List.length_cons, List.range'_succ, ih]
    · rfl

/-- **The ids of the chunks of a document.** -/
theorem chunk_ids (document : SourceDocument V) : (chunker.chunk document).map (·.id) =
    (List.range (chunker.chunk document).length).map fun i => document.id ++ ":" ++ toString i := by
  rw [List.range_eq_range']
  exact chunker.chunkLoop_ids

end TextChunker

theorem append_cons_inj {c : Char} {a b u v : List Char} (ha : c ∉ a) (hb : c ∉ b)
    (h : a ++ c :: u = b ++ c :: v) : a = b ∧ u = v := by
  induction a generalizing b with
  | nil =>
    cases b with
    | nil => exact ⟨rfl, (List.cons.inj h).2⟩
    | cons x b => exact absurd (List.cons.inj h).1 (by rintro rfl; exact hb List.mem_cons_self)
  | cons x a ih =>
    cases b with
    | nil => exact absurd (List.cons.inj h).1 (by rintro rfl; exact ha List.mem_cons_self)
    | cons y b =>
      obtain ⟨rfl, hrest⟩ := List.cons.inj h
      obtain ⟨rfl, huv⟩ := ih (fun hm => ha (List.mem_cons_of_mem _ hm))
        (fun hm => hb (List.mem_cons_of_mem _ hm)) hrest
      exact ⟨rfl, huv⟩

/-- The id of a chunk tells the document and the index. -/
theorem chunkId_inj {d d' : String} {i j : Nat}
    (h : d ++ ":" ++ toString i = d' ++ ":" ++ toString j) : d = d' ∧ i = j := by
  have hquiet : ∀ n : Nat, ':' ∉ (toString n).toList := fun n hn =>
    absurd (Text.isDigit_of_mem_numeral hn) (by decide)
  have hlist : d.toList ++ ':' :: (toString i).toList = d'.toList ++ ':' :: (toString j).toList := by
    simpa [String.toList_append] using congrArg String.toList h
  have hrev := congrArg List.reverse hlist
  simp only [List.reverse_append, List.reverse_cons, List.append_assoc, List.singleton_append]
    at hrev
  obtain ⟨hi, hd⟩ := append_cons_inj (by simpa using hquiet i) (by simpa using hquiet j) hrev
  refine ⟨String.toList_inj.1 (List.reverse_injective hd), ?_⟩
  exact Text.toString_injective (String.toList_inj.1 (List.reverse_injective hi))

namespace TextChunker
variable (chunker : TextChunker)

theorem nodup_chunk_ids (document : SourceDocument V) :
    ((chunker.chunk document).map (·.id)).Nodup := by
  rw [chunk_ids]
  exact List.nodup_range.map fun i j h => (chunkId_inj h).2

end TextChunker

/-! ## Qdrant points -/

/-- `str(metadata.get("tenant_id", "default"))`. -/
def qdrantTenant (str : V → String) (chunk : RetrievedDocument V) : String :=
  match chunk.tenantId with
  | some (.text s) => s
  | some (.other v) => str v
  | none => "default"

/-- The point id of a chunk; `uuid5` is taken in the namespace of the retriever. -/
def qdrantPointId (uuid5 : String → String) (str : V → String) (chunk : RetrievedDocument V) :
    String :=
  uuid5 (qdrantTenant str chunk ++ ":" ++ chunk.id)

end TracciaRuntime
