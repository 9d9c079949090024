/-
  The windows of the text chunker.

  * `Cuts`: the turns of the loop, each with the window that it cuts from the text; there is
    no bound on their number;
  * `Cuts.exists`: the loop ends; `chunk_eq`: the chunks are the pieces in the windows;
  * `Cuts.covers`, `Cuts.advance`: the windows leave no gap, advance and overlap within the
    bound.
-/
import TracciaRuntime.Retrieval.Ingestion

namespace Py

theorem strip_infix (s : String) : (strip s).toList <:+: s.toList := by
  unfold strip
  rw [String.toList_ofList]
  refine List.IsInfix.trans ?_ (List.dropWhile_suffix isSpace).isInfix
  have h := List.dropWhile_suffix isSpace (l := (s.toList.dropWhile isSpace).reverse)
  have h' := List.reverse_prefix.2 h
  rw [List.reverse_reverse] at h'
  exact h'.isInfix

end Py

namespace TracciaRuntime

open Py

variable {V : Type}

theorem mem_rfindSpace {s : List Char} {lo hi i : Nat} (h : rfindSpace s lo hi = some i) :
    lo ≤ i ∧ i < hi := by
  have hmem := List.mem_of_getLast? h
  simp only [List.mem_filter, List.mem_range'_1] at hmem
  omega

namespace TextChunker

variable (chunker : TextChunker) {document : SourceDocument V} {text : List Char}
  {start index : Nat} {ws : List (Nat × Nat)}

/-! ## Windows -/

theorem chunkEnd_bounds (h : start < text.length) :
    start < chunker.chunkEnd text start ∧ chunker.chunkEnd text start ≤ text.length ∧
      chunker.chunkEnd text start ≤ start + chunker.chunkSize := by
  have hsize := chunker.size_ge
  unfold chunkEnd
  dsimp only
  split
  · split
    · rename_i boundary hboundary
      obtain ⟨-, hlt⟩ := mem_rfindSpace hboundary
      split <;> omega
    · omega
  · omega

/-- Where the next window begins. -/
def nextStart (text : List Char) (start : Nat) : Nat :=
  max (start + 1) (chunker.chunkEnd text start - chunker.chunkOverlap)

/-- The turns of the loop from `start` on. -/
inductive Cuts (text : List Char) : (start : Nat) → List (Nat × Nat) → Prop
  /-- the condition of the loop does not hold -/
  | done {start : Nat} : text.length ≤ start → Cuts text start []
  /-- `break` -/
  | last {start : Nat} : start < text.length → text.length ≤ chunker.chunkEnd text start →
      Cuts text start [(start, chunker.chunkEnd text start)]
  | next {start : Nat} {ws : List (Nat × Nat)} : start < text.length →
      chunker.chunkEnd text start < text.length → Cuts text (chunker.nextStart text start) ws →
      Cuts text start ((start, chunker.chunkEnd text start) :: ws)

/-- The text in a window, without the spaces around it. -/
def piece (text : List Char) (w : Nat × Nat) : String :=
  strip (String.ofList ((text.take w.2).drop w.1))

/-- The chunks of the windows; a window with spaces only gives none. -/
def pieces (document : SourceDocument V) (text : List Char) :
    List (Nat × Nat) → (index : Nat) → List (RetrievedDocument V)
  | [], _ => []
  | w :: ws, index =>
    if piece text w = "" then pieces document text ws index
    else chunkOf document (piece text w) index :: pieces document text ws (index + 1)

variable {chunker}

/-- **The loop ends**: every turn begins later than the one before it. -/
theorem Cuts.exists (chunker : TextChunker) (text : List Char) (start : Nat) :
    ∃ ws, chunker.Cuts text start ws := by
  induction hn : text.length - start using Nat.strong_induction_on generalizing start with
  | _ n ih =>
    by_cases hstart : start < text.length
    · by_cases hend : chunker.chunkEnd text start < text.length
      · have hnext : start < chunker.nextStart text start := by unfold nextStart; omega
        obtain ⟨ws, h⟩ := ih (text.length - chunker.nextStart text start) (by omega)
          (chunker.nextStart text start) rfl
        exact ⟨_, .next hstart hend h⟩
      · exact ⟨_, .last hstart (Nat.le_of_not_lt hend)⟩
    · exact ⟨_, .done (Nat.le_of_not_lt hstart)⟩

/-- With enough turns the model takes these. -/
theorem Cuts.chunkLoop_eq (h : chunker.Cuts text start ws) {turns : Nat}
    (hturns : text.length ≤ turns + start) :
    chunker.chunkLoop document text turns start index = pieces document text ws index := by
  induction h generalizing turns index with
  | done hlen =>
    cases turns with
    | zero => rfl
    | succ turns => rw [chunkLoop, if_neg (by omega)]; rfl
  | last hstart hend =>
    cases turns with
    | zero => omega
    | succ turns =>
      rw [chunkLoop, if_pos hstart]
      simp only [ge_iff_le, hend, if_true, pieces]
      rfl
  | @next start ws hstart hend _ ih =>
    cases turns with
    | zero => omega
    | succ turns =>
      have hrest : ∀ index, chunker.chunkLoop document text turns
          (max (start + 1) (chunker.chunkEnd text start - chunker.chunkOverlap)) index =
            pieces document text ws index :=
        fun index => ih (by unfold nextStart; omega)
      rw [chunkLoop, if_pos hstart]
      simp only [ge_iff_le, Nat.not_le.2 hend, if_false, pieces, hrest]
      rfl

/-- The windows lie in the text, and are not longer than a chunk. -/
theorem Cuts.bounds (h : chunker.Cuts text start ws) :
    ∀ w ∈ ws, start ≤ w.1 ∧ w.1 < w.2 ∧ w.2 ≤ text.length ∧ w.2 ≤ w.1 + chunker.chunkSize := by
  induction h with
  | done => simp
  | last hstart hend =>
    have hb := chunker.chunkEnd_bounds hstart
    simpa using hb
  | @next start ws hstart hend _ ih =>
    intro w hw
    rcases List.mem_cons.1 hw with rfl | hw
    · exact ⟨Nat.le_refl _, chunker.chunkEnd_bounds hstart⟩
    · obtain ⟨hle, h⟩ := ih w hw
      refine ⟨?_, h⟩
      unfold nextStart at hle
      omega

/-- **No gap**: the next window begins within the one before it or right after. -/
theorem Cuts.covers (h : chunker.Cuts text start ws) {i : Nat} (hi : start ≤ i)
    (hlen : i < text.length) : ∃ w ∈ ws, w.1 ≤ i ∧ i < w.2 := by
  induction h with
  | done => omega
  | last hstart hend => exact ⟨_, List.mem_cons_self, hi, by simp only; omega⟩
  | @next start ws hstart hend _ ih =>
    by_cases hin : i < chunker.chunkEnd text start
    · exact ⟨_, List.mem_cons_self, hi, hin⟩
    · have hb := chunker.chunkEnd_bounds hstart
      obtain ⟨w, hw, h⟩ := ih (by unfold nextStart; omega)
      exact ⟨w, List.mem_cons_of_mem _ hw, h⟩

theorem Cuts.head (h : chunker.Cuts text start ws) : ∀ w ∈ ws.head?, w.1 = start := by
  cases h <;> simp

/-- **Progress**: a window begins after the one before it, and goes back over at most the
    overlap. -/
theorem Cuts.advance (h : chunker.Cuts text start ws) :
    ws.IsChain fun w w' => w.1 < w'.1 ∧ w.2 ≤ w'.1 + chunker.chunkOverlap := by
  induction h with
  | done => exact .nil
  | last => exact .singleton _
  | @next start ws hstart hend hws ih =>
    cases ws with
    | nil => exact .singleton _
    | cons w ws =>
      have hw : w.1 = chunker.nextStart text start := hws.head w rfl
      refine .cons_cons ?_ ih
      rw [hw]
      unfold nextStart
      exact ⟨by omega, by dsimp only; omega⟩

/-! ## Chunks -/

theorem piece_infix (text : List Char) (w : Nat × Nat) : (piece text w).toList <:+: text := by
  refine (Py.strip_infix _).trans ?_
  rw [String.toList_ofList]
  exact (List.drop_suffix _ _).isInfix.trans (List.take_prefix _ _).isInfix

theorem piece_length (text : List Char) (w : Nat × Nat) :
    (piece text w).toList.length ≤ w.2 - w.1 := by
  have h := (Py.strip_infix (String.ofList ((text.take w.2).drop w.1))).length_le
  rw [String.toList_ofList, List.length_drop, List.length_take] at h
  unfold piece
  omega

theorem mem_pieces {c : RetrievedDocument V} (h : c ∈ pieces document text ws index) :
    ∃ w ∈ ws, c.text = piece text w ∧ piece text w ≠ "" := by
  induction ws generalizing index with
  | nil => cases h
  | cons w ws ih =>
    rw [pieces] at h
    split at h
    · obtain ⟨w', hw', h'⟩ := ih h
      exact ⟨w', List.mem_cons_of_mem _ hw', h'⟩
    · rename_i hne
      rcases List.mem_cons.1 h with rfl | h
      · exact ⟨w, List.mem_cons_self, rfl, hne⟩
      · obtain ⟨w', hw', h'⟩ := ih h
        exact ⟨w', List.mem_cons_of_mem _ hw', h'⟩

theorem pieces_index : (pieces document text ws index).map (·.chunkIndex) =
    List.range' index (pieces document text ws index).length := by
  induction ws generalizing index with
  | nil => rfl
  | cons w ws ih =>
    rw [pieces]
    split
    · exact ih
    · rw [List.map_cons, List.length_cons, List.range'_succ, ih]
      rfl

/-- `" ".join(document.text.split())`. -/
def normalised (document : SourceDocument V) : List Char :=
  [' '].intercalate (splitWords document.text.toList)

theorem chunk_eq (h : chunker.Cuts (normalised document) 0 ws) :
    chunker.chunk document = pieces document (normalised document) ws 0 :=
  h.chunkLoop_eq (Nat.le_refl _)

/-- **Text chunking.**  The loop ends; its windows cover the normalised text, advance and overlap
    within the bound; the chunks are the pieces in the windows, each a part of the text that is
    not empty nor too long, numbered from zero on and with ids of their own. -/
theorem chunk_windows (chunker : TextChunker) (document : SourceDocument V) :
    ∃ ws, chunker.Cuts (normalised document) 0 ws ∧
      chunker.chunk document = pieces document (normalised document) ws 0 ∧
      (∀ c ∈ chunker.chunk document, c.text ≠ "" ∧ c.text.toList <:+: normalised document ∧
        c.text.toList.length ≤ chunker.chunkSize) ∧
      (∀ i < (normalised document).length, ∃ w ∈ ws, w.1 ≤ i ∧ i < w.2) ∧
      (ws.IsChain fun w w' => w.1 < w'.1 ∧ w.2 ≤ w'.1 + chunker.chunkOverlap) ∧
      (chunker.chunk document).map (·.chunkIndex) =
        List.range (chunker.chunk document).length ∧
      ((chunker.chunk document).map (·.id)).Nodup := by
  obtain ⟨ws, h⟩ := Cuts.exists chunker (normalised document) 0
  refine ⟨ws, h, chunk_eq h, fun c hc => ?_, fun i hi => h.covers (Nat.zero_le i) hi, h.advance,
    ?_, chunker.nodup_chunk_ids document⟩
  · rw [chunk_eq h] at hc
    obtain ⟨w, hw, htext, hne⟩ := mem_pieces hc
    obtain ⟨-, -, -, hsize⟩ := h.bounds w hw
    have hlen := piece_length (normalised document) w
    rw [htext]
    exact ⟨hne, piece_infix _ _, by omega⟩
  · rw [chunk_eq h, List.range_eq_range']
    exact pieces_index

end TextChunker

end TracciaRuntime
