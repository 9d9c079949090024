/-
  What a query finds in memory.

  * `Finds`: the answer is sound, ranked, short and complete, and has no text of a source twice;
  * `answer_finds`: without a reranker, every answer is one from the stored chunks;
  * `retrieve_finds`: after calls that re-ingestion can take, it is one from the chunks of the last
    versions of the documents.
-/
import TracciaRuntime.Listing.Top
import TracciaRuntime.Proof.Reingestion
import Mathlib.Data.String.Basic

namespace TracciaRuntime.InMemoryRetriever

open Py

variable {V : Type} {cfg : RetrieverConfig V} {r : InMemoryRetriever V} {q : RetrievalQuery V}
  {out : List (RetrievedDocument V)}

/-- What `_deduplicate` tells documents apart by. -/
def identity (cfg : RetrieverConfig V) (d : RetrievedDocument V) : String × String :=
  (d.source, cfg.folded d.text)

/-- The vector of a query. -/
def queryVector (cfg : RetrieverConfig V) (q : RetrievalQuery V) : Except Exn (List ℚ) :=
  if q.mode = .keyword then .ok [] else (cfg.embed [q.text]).map fun embedded => embedded.headD []

/-! ## Ranking -/

theorem ranksBefore_iff {a b : RetrievedDocument V} : ranksBefore a b = true ↔
    b.score < a.score ∨ a.score = b.score ∧ a.id ≤ b.id := by
  simp [ranksBefore]

theorem ranksBefore_trans (a b c : RetrievedDocument V) (hab : ranksBefore a b = true)
    (hbc : ranksBefore b c = true) : ranksBefore a c = true := by
  rw [ranksBefore_iff] at hab hbc ⊢
  rcases hab with hab | ⟨hab, hid⟩
  · rcases hbc with hbc | ⟨hbc, -⟩
    · exact .inl (hbc.trans hab)
    · exact .inl (hbc ▸ hab)
  · rcases hbc with hbc | ⟨hbc, hid'⟩
    · exact .inl (hab ▸ hbc)
    · exact .inr ⟨hab.trans hbc, hid.trans hid'⟩

theorem ranksBefore_total (a b : RetrievedDocument V) :
    (ranksBefore a b || ranksBefore b a) = true := by
  rw [Bool.or_eq_true, ranksBefore_iff, ranksBefore_iff]
  rcases lt_trichotomy a.score b.score with h | h | h
  · exact .inr (.inl h)
  · exact (le_total a.id b.id).imp (fun hid => .inr ⟨h, hid⟩) fun hid => .inr ⟨h.symm, hid⟩
  · exact .inl (.inl h)

theorem score_of_ranksBefore (a b : RetrievedDocument V) (h : ranksBefore a b = true) :
    b.score ≤ a.score := by
  rcases ranksBefore_iff.1 h with h | ⟨h, -⟩
  · exact h.le
  · exact h.ge

variable [DecidableEq V]

/-! ## Answers -/

/-- `c` is among the chunks, the query may see it, and `d` is `c` with its scores, which are high
    enough. -/
structure Matches (cfg : RetrieverConfig V) (q : RetrievalQuery V) (v : List ℚ)
    (r : InMemoryRetriever V) (chunks : RetrievedDocument V → Prop) (c d : RetrievedDocument V) :
    Prop where
  mem : chunks c
  visible : visible cfg q c = true
  scored : scored cfg q v r c = some d

/-- `out` answers the query from the chunks. -/
structure Finds (cfg : RetrieverConfig V) (q : RetrievalQuery V) (v : List ℚ)
    (r : InMemoryRetriever V) (chunks : RetrievedDocument V → Prop)
    (out : List (RetrievedDocument V)) : Prop where
  sound : ∀ d ∈ out, ∃ c, Matches cfg q v r chunks c d
  single : (out.map (identity cfg)).Nodup
  ranked : out.Pairwise fun a b => ranksBefore a b = true
  short : out.length ≤ q.limit
  complete : ∀ c d, Matches cfg q v r chunks c d →
    (∃ b ∈ out, identity cfg b = identity cfg d ∧ d.score ≤ b.score) ∨
      out.length = q.limit ∧ ∀ b ∈ out, d.score ≤ b.score

theorem Finds.congr {v : List ℚ} {chunks chunks' : RetrievedDocument V → Prop}
    (h : Finds cfg q v r chunks out) (hchunks : ∀ c, chunks c ↔ chunks' c) :
    Finds cfg q v r chunks' out := by
  rwa [← show chunks = chunks' from funext fun c => propext (hchunks c)]

omit [DecidableEq V] in
theorem deduplicate_eq (cfg : RetrieverConfig V) (l : List (RetrievedDocument V)) :
    deduplicate cfg l = Listing.bests (identity cfg) (·.score) l := by
  unfold deduplicate Listing.bests
  congr 2
  funext selected d
  unfold Listing.keep identity
  dsimp only
  cases hget : selected.get (d.source, cfg.folded d.text) with
  | none => rfl
  | some existing => rfl

omit [DecidableEq V] in
/-- `_deduplicate` keeps the best document of each text. -/
theorem best_deduplicate (cfg : RetrieverConfig V) (l : List (RetrievedDocument V)) :
    Listing.Best (identity cfg) (·.score) l (deduplicate cfg l) :=
  (deduplicate_eq cfg l).symm ▸ Listing.best_bests (identity cfg) (·.score) l

/-- The documents that are scored high enough. -/
def candidates (cfg : RetrieverConfig V) (q : RetrievalQuery V) (v : List ℚ)
    (r : InMemoryRetriever V) : List (RetrievedDocument V) :=
  (r.documents.filter (visible cfg q)).filterMap (scored cfg q v r)

theorem mem_candidates {v : List ℚ} {d : RetrievedDocument V} :
    d ∈ candidates cfg q v r ↔ ∃ c, Matches cfg q v r (· ∈ r.documents) c d := by
  unfold candidates
  rw [List.mem_filterMap]
  constructor
  · rintro ⟨c, hc, hd⟩
    obtain ⟨hmem, hvisible⟩ := List.mem_filter.1 hc
    exact ⟨c, hmem, hvisible, hd⟩
  · rintro ⟨c, hmem, hvisible, hd⟩
    exact ⟨c, List.mem_filter.2 ⟨hmem, hvisible⟩, hd⟩

theorem answer_eq_ok (hrerank : cfg.rerank = none) (h : r.answer cfg q = .ok out) :
    ∃ v, queryVector cfg q = .ok v ∧
      out = ((deduplicate cfg (candidates cfg q v r)).mergeSort ranksBefore).take q.limit := by
  simp only [answer, hrerank] at h
  unfold queryVector
  by_cases hmode : q.mode = .keyword
  · rw [if_pos hmode] at h ⊢
    cases h
    exact ⟨[], rfl, rfl⟩
  · rw [if_neg hmode] at h ⊢
    obtain ⟨v, hv, h⟩ := bind_eq_ok.1 h
    cases h
    exact ⟨v, hv, rfl⟩

/-- **Without a reranker, a query is answered from what is stored.** -/
theorem answer_finds (hrerank : cfg.rerank = none) (h : r.answer cfg q = .ok out) :
    ∃ v, queryVector cfg q = .ok v ∧ Finds cfg q v r (· ∈ r.documents) out := by
  obtain ⟨v, hv, rfl⟩ := answer_eq_ok hrerank h
  have htop := (best_deduplicate cfg (candidates cfg q v r)).top ranksBefore_trans ranksBefore_total
    score_of_ranksBefore q.limit
  exact ⟨v, hv, fun d hd => mem_candidates.1 (htop.mem d hd), htop.nodup, htop.sorted, htop.short,
    fun c d hd => htop.complete d (mem_candidates.2 ⟨c, hd⟩)⟩

/-! ## Histories -/

/-- No call of a history leaves documents pending. -/
theorem pending_step {h : History V} (hp : h.retriever.pending = []) (c : IndexCall V) :
    (h.step cfg c).retriever.pending = [] := by
  cases c with
  | ingest documents =>
    simp only [History.step]
    split
    · rename_i result hr
      unfold ingest at hr
      dsimp only at hr
      split at hr
      · cases hr
        exact hp
      · obtain ⟨vectors, -, hr⟩ := bind_eq_ok.1 hr
        split at hr
        · cases hr
        · cases hr
          exact hp
    · exact hp
  | delete tenantId documentId =>
    simp only [History.step, delete, hp]
    rfl

/-- A history without pending documents, and lawful. -/
theorem lawful_foldl {h : History V} (hl : h.Lawful cfg) (hp : h.retriever.pending = [])
    {calls : List (IndexCall V)}
    (hcalls : ∀ pre c, pre ++ [c] <+: calls → (pre.foldl (History.step cfg) h).Tame cfg c) :
    (calls.foldl (History.step cfg) h).Lawful cfg ∧
      (calls.foldl (History.step cfg) h).retriever.pending = [] := by
  induction calls generalizing h with
  | nil => exact ⟨hl, hp⟩
  | cons c calls ih =>
    have htame : h.Tame cfg c := hcalls [] c (by simp)
    refine ih ((lawful_step_iff hl c).2 htame) (pending_step hp c) fun pre c' hpre => ?_
    exact hcalls (c :: pre) c' (by simpa using hpre)

/-- What is stored are the chunks of the versions. -/
theorem History.Lawful.mem_documents {h : History V} (hl : h.Lawful cfg)
    (x : RetrievedDocument V) : x ∈ h.retriever.documents ↔
      ∃ o d, h.current o = some d ∧ x ∈ cfg.chunker.chunk d := by
  constructor
  · intro hx
    have hmem : x ∈ h.retriever.documents.filter fun y => owner cfg y = owner cfg x := by
      simp [hx]
    rw [hl.exact] at hmem
    cases hc : h.current (owner cfg x) with
    | none => simp [hc] at hmem
    | some d => exact ⟨owner cfg x, d, hc, by simpa [hc] using hmem⟩
  · rintro ⟨o, d, hc, hx⟩
    have hmem : x ∈ h.retriever.documents.filter fun y => owner cfg y = o := by
      rw [hl.exact, hc]
      exact hx
    exact (List.mem_filter.1 hmem).1

/-- **What is ingested is found.** After any calls that re-ingestion can take, a query without a
    reranker is answered from the chunks of the last versions of the documents, and a chunk that
    is not among the answers has its text there with no lower score, or no room among better
    ones. -/
theorem retrieve_finds (cfg : RetrieverConfig V) (calls : List (IndexCall V))
    (hcalls : ∀ pre c, pre ++ [c] <+: calls →
      (pre.foldl (History.step cfg) {}).Tame cfg c)
    (hrerank : cfg.rerank = none)
    (hout : ((calls.foldl (History.step cfg) {}).retriever.retrieve cfg q).2 = .ok out) :
    ∃ v, queryVector cfg q = .ok v ∧
      Finds cfg q v (calls.foldl (History.step cfg) {}).retriever
        (fun c => ∃ o d, (calls.foldl (History.step cfg) {}).current o = some d ∧
          c ∈ cfg.chunker.chunk d) out := by
  have hempty : History.Lawful cfg ({} : History V) := lawful_iff.2 Versions.exact_nil
  obtain ⟨hl, hp⟩ := lawful_foldl hempty rfl hcalls
  have hanswer : (calls.foldl (History.step cfg) {}).retriever.answer cfg q = .ok out := by
    rwa [retrieve, ingestPending, if_pos hp] at hout
  obtain ⟨v, hv, hfinds⟩ := answer_finds hrerank hanswer
  exact ⟨v, hv, hfinds.congr hl.mem_documents⟩

/-! ## A sample -/

namespace Sample

/-- Two documents with one text. -/
def shelf : List (SourceDocument String) :=
  [{ id := "a", text := "tea", source := "s" }, { id := "b", text := "tea", source := "s" }]

def tea : RetrievalQuery String := { text := "tea", tenantId := "t" }

end Sample

/-- The documents are two, so that neither is a version of the other. -/
theorem shelf_tame : History.Tame TracciaRuntime.Sample.memory {} (.ingest Sample.shelf) := by
  refine fun _ => ⟨fun k d hd => ?_, fun x hx => by (cases hx)⟩
  have hshort : (Sample.shelf.filter fun d =>
      ownerOf TracciaRuntime.Sample.memory d = k).length ≤ 1 := by
    unfold Sample.shelf
    simp only [List.filter_cons, List.filter_nil, decide_eq_true_eq]
    split
    · rename_i h
      rw [← h, if_neg (by decide)]
      exact le_refl 1
    · split
      · exact le_refl 1
      · exact Nat.zero_le 1
  have hnil : (Sample.shelf.filter fun d =>
      ownerOf TracciaRuntime.Sample.memory d = k).dropLast = [] :=
    List.eq_nil_of_length_eq_zero (by rw [List.length_dropLast]; omega)
  rw [hnil] at hd
  cases hd

/-- The text is found once, under the smaller id. -/
theorem retrieve_finds_sample : ∃ v, queryVector TracciaRuntime.Sample.memory Sample.tea = .ok v ∧
    Finds TracciaRuntime.Sample.memory Sample.tea v
      (History.step TracciaRuntime.Sample.memory {} (.ingest Sample.shelf)).retriever
      (fun c => ∃ o d,
        (History.step TracciaRuntime.Sample.memory {} (.ingest Sample.shelf)).current o = some d ∧
          c ∈ standardChunker.chunk d)
      [{ id := "a:0", text := "tea", source := "s", score := 2 / 5, documentId := some "a",
         keywordScore := 1 }] := by
  refine retrieve_finds TracciaRuntime.Sample.memory [.ingest Sample.shelf]
    (fun pre c hpre => ?_) rfl ?_
  · cases pre with
    | nil =>
      obtain ⟨rfl, -⟩ := List.cons_prefix_cons.1 hpre
      exact shelf_tame
    | cons c₀ pre =>
      have := hpre.length_le
      simp at this
  · decide +kernel

end TracciaRuntime.InMemoryRetriever
