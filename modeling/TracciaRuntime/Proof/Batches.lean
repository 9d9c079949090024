/-
  The batches in which a vector store embeds the chunks of its documents.

  * `batches`: what the loop of `_chunks_and_vectors` passes to the embedder, call by call;
  * `Admissible`: a batch within the limits; every batch of the loop is;
  * `batched_embedding`: an embedder that embeds each text on its own returns what one call on all
    texts would.
-/
import TracciaRuntime.Retrieval.VectorStores

namespace TracciaRuntime

open Py

variable {V : Type}

namespace VectorStoreConfig
variable {cfg : VectorStoreConfig V} {batch texts : List String} {characters : Nat}

/-- The batches that the loop passes on, after the texts of `batch` with their `characters`. -/
def batches : (batch : List String) → (characters : Nat) → List String → List (List String)
  | batch, _, [] => if batch = [] then [] else [batch]
  | batch, characters, text :: texts =>
    if batch ≠ [] ∧ (batch.length ≥ 128 ∨ characters + text.length > 200000) then
      batch :: batches [text] text.length texts
    else batches (batch ++ [text]) (characters + text.length) texts

/-- **The loop** embeds the batches one after the other. -/
theorem embedLoop_eq : cfg.embedLoop batch characters texts =
    ((batches batch characters texts).mapM cfg.embed).map List.flatten := by
  induction texts generalizing batch characters with
  | nil =>
    unfold embedLoop batches
    split_ifs
    · rfl
    · rw [List.mapM_cons]
      cases cfg.embed batch <;> simp [Except.map, bind, Except.bind, pure, Except.pure]
  | cons text texts ih =>
    unfold embedLoop batches
    split_ifs
    · rw [ih, List.mapM_cons]
      cases cfg.embed batch with
      | error e => rfl
      | ok vectors =>
        cases (batches [text] text.length texts).mapM cfg.embed <;> rfl
    · exact ih

/-- No text is lost, doubled or moved. -/
theorem flatten_batches : (batches batch characters texts).flatten = batch ++ texts := by
  induction texts generalizing batch characters with
  | nil =>
    unfold batches
    split_ifs with h
    · simp [h]
    · simp
  | cons text texts ih =>
    unfold batches
    split_ifs
    · rw [List.flatten_cons, ih, List.singleton_append]
    · rw [ih, List.append_assoc, List.singleton_append]

/-- The number of characters in the texts. -/
def volume (texts : List String) : Nat := (texts.map String.length).sum

/-- A batch that an embedder accepts. -/
structure Admissible (batch : List String) : Prop where
  nonempty : batch ≠ []
  few : batch.length ≤ 128
  short : batch.length = 1 ∨ volume batch ≤ 200000

/-- **The invariant of the loop**: the characters are counted, and the batch is empty or admissible. -/
structure Filling (batch : List String) (characters : Nat) : Prop where
  counted : characters = volume batch
  admissible : batch ≠ [] → Admissible batch

theorem Filling.empty : Filling [] 0 := ⟨rfl, fun h => absurd rfl h⟩

theorem Filling.singleton (text : String) : Filling [text] text.length :=
  ⟨by simp [volume], fun _ => ⟨List.cons_ne_nil _ _, by simp, .inl rfl⟩⟩

/-- A text is added to a batch that has room for it. -/
theorem Filling.append {text : String} (h : Filling batch characters)
    (hroom : ¬(batch ≠ [] ∧ (batch.length ≥ 128 ∨ characters + text.length > 200000))) :
    Filling (batch ++ [text]) (characters + text.length) := by
  have hvolume : characters + text.length = volume (batch ++ [text]) := by
    rw [h.counted]
    simp [volume]
  refine ⟨hvolume, fun _ => ⟨by simp, ?_, ?_⟩⟩
  · rw [List.length_append, List.length_singleton]
    by_cases hb : batch = []
    · simp [hb]
    · have : ¬batch.length ≥ 128 := fun hlen => hroom ⟨hb, .inl hlen⟩
      omega
  · by_cases hb : batch = []
    · left
      rw [hb]
      rfl
    · right
      rw [← hvolume]
      exact not_lt.1 fun hlong => hroom ⟨hb, .inr hlong⟩

theorem admissible_of_mem_batches (h : Filling batch characters) :
    ∀ b ∈ batches batch characters texts, Admissible b := by
  induction texts generalizing batch characters with
  | nil =>
    unfold batches
    split_ifs with hb
    · exact List.forall_mem_nil _
    · exact List.forall_mem_singleton.2 (h.admissible hb)
  | cons text texts ih =>
    unfold batches
    split_ifs with hfull
    · exact List.forall_mem_cons.2 ⟨h.admissible hfull.1, ih (.singleton text)⟩
    · exact ih (h.append hfull)

/-- Embedding batch by batch is embedding text by text. -/
theorem mapM_embed {f : String → List ℚ} {bs : List (List String)}
    (hf : ∀ b ∈ bs, cfg.embed b = .ok (b.map f)) :
    (bs.mapM cfg.embed).map List.flatten = .ok (bs.flatten.map f) := by
  have hbs : bs.mapM cfg.embed = .ok (bs.map (List.map f)) :=
    mapM_eq_ok.2 (List.forall₂_map_right_iff.2 (List.forall₂_same.2 hf))
  rw [hbs, List.map_flatten]
  rfl

/-- An embedder that embeds each text of an admissible batch on its own returns the vectors of all
    chunks, in their order, and is passed admissible batches only. -/
theorem batched_embedding (cfg : VectorStoreConfig V) (f : String → List ℚ)
    (documents : List (SourceDocument V))
    (hf : ∀ batch, Admissible batch → cfg.embed batch = .ok (batch.map f)) :
    let chunks := documents.flatMap cfg.chunker.chunk
    let calls := batches [] 0 (chunks.map (·.text))
    cfg.chunksAndVectors documents = .ok (chunks, chunks.map fun c => f c.text) ∧
      cfg.embedLoop [] 0 (chunks.map (·.text)) = (calls.mapM cfg.embed).map List.flatten ∧
      ∀ batch ∈ calls, Admissible batch := by
  intro chunks calls
  have hcalls : ∀ batch ∈ calls, Admissible batch := admissible_of_mem_batches .empty
  have hloop : cfg.embedLoop [] 0 (chunks.map (·.text)) = .ok (chunks.map fun c => f c.text) := by
    rw [embedLoop_eq, mapM_embed fun b hb => hf b (hcalls b hb), flatten_batches, List.nil_append,
      List.map_map]
    rfl
  refine ⟨?_, embedLoop_eq, hcalls⟩
  refine bind_eq_ok.2 ⟨_, hloop, if_neg fun h => h ?_⟩
  rw [List.length_map]

/-- An embedder of one number for each text. -/
def lengths : VectorStoreConfig Unit where
  embed texts := .ok (texts.map fun s => [(s.length : ℚ)])
  dimensions := 1
  str _ := ""
  write _ := .ok ()

def memo : SourceDocument Unit where
  id := "memo"
  text := "The quick brown fox"
  source := "inbox"

theorem batched_embedding_memo : lengths.chunksAndVectors [memo] =
    .ok ([memo].flatMap lengths.chunker.chunk,
      ([memo].flatMap lengths.chunker.chunk).map fun c => [(c.text.length : ℚ)]) :=
  (batched_embedding lengths (fun s => [(s.length : ℚ)]) [memo] fun _ _ => rfl).1

end VectorStoreConfig

end TracciaRuntime
