/-
  Tenants of the in-memory retriever.

  Items and vectors are found by chunk ids, which tenants may share.

  * `Alike`: two retrievers are the same for everyone but tenant `a`;
  * `ingest_alike`, `delete_alike`, `after_alike`: every call keeps that, and the calls of
    `a` do not change what the others see, as long as no item of `a` has the id of
    another item;
  * `tenants_apart`: hence the queries of the others return the same, and when
    `delete` counts right.
-/
import TracciaRuntime.Retrieval.Memory

namespace TracciaRuntime

open Py

variable {V : Type} [DecidableEq V]

/-! ## Vectors -/

namespace InMemoryRetriever

variable {cfg : RetrieverConfig V} {a : String}

theorem get_popVectors (ids : List String) (vectors : Dict String (List ℚ)) (k : String) :
    (popVectors ids vectors).get k = if k ∈ ids then none else vectors.get k := by
  induction vectors with
  | nil => simp [popVectors, Dict.get]
  | cons i vectors ih =>
    obtain ⟨k', v⟩ := i
    rw [popVectors] at ih ⊢
    rw [List.filter_cons]
    by_cases hk : k' = k
    · subst hk
      split
      · rename_i h
        have h : k' ∉ ids := by simpa using h
        rw [if_neg h]
        simp [Dict.get]
      · rename_i h
        have h : k' ∈ ids := by simpa using h
        rw [ih, if_pos h, if_pos h]
    · split
      · simp only [Dict.get, hk, if_false]
        exact ih
      · simp only [Dict.get, hk, if_false]
        exact ih

/-- The last new vector of an id counts, then the old one. -/
theorem get_updateVectors (new : List (String × List ℚ)) (vectors : Dict String (List ℚ))
    (k : String) : (updateVectors new vectors).get k =
      ((new.filter fun i => i.1 = k).getLast?.map (·.2)).or (vectors.get k) := by
  induction new generalizing vectors with
  | nil => simp [updateVectors]
  | cons i new ih =>
    rw [updateVectors, List.foldl_cons, ← updateVectors, ih, Dict.get_set, List.filter_cons]
    by_cases hk : i.1 = k
    · subst hk
      cases hl : (new.filter fun j => j.1 = i.1).getLast? with
      | none => simp [List.getLast?_cons, hl]
      | some j => simp [List.getLast?_cons, hl]
    · simp [hk, Ne.symm hk]

/-! ## What the others see -/

/-- The metadata is that of tenant `a`. -/
def ofTenant (cfg : RetrieverConfig V) (a : String) (metadata : Dict String (MetaValue V)) : Bool :=
  tenantOf cfg metadata = some (.text a)

/-- The items of everyone but `a`. -/
def others (cfg : RetrieverConfig V) (a : String) (items : List (RetrievedDocument V)) :
    List (RetrievedDocument V) := items.filter fun x => !ofTenant cfg a x.metadata

def otherSources (cfg : RetrieverConfig V) (a : String) (documents : List (SourceDocument V)) :
    List (SourceDocument V) := documents.filter fun d => !ofTenant cfg a d.metadata

theorem mem_others {items : List (RetrievedDocument V)} {x : RetrievedDocument V} :
    x ∈ others cfg a items ↔ x ∈ items ∧ ofTenant cfg a x.metadata = false := by
  simp [others]

theorem others_append (items items' : List (RetrievedDocument V)) :
    others cfg a (items ++ items') = others cfg a items ++ others cfg a items' := by
  simp [others]

/-- Chunks belong to the tenant of their document. -/
theorem others_chunks (documents : List (SourceDocument V)) :
    others cfg a (documents.flatMap cfg.chunker.chunk) =
      (otherSources cfg a documents).flatMap cfg.chunker.chunk := by
  induction documents with
  | nil => rfl
  | cons d documents ih =>
    have hchunk : ∀ c ∈ cfg.chunker.chunk d, ofTenant cfg a c.metadata = ofTenant cfg a d.metadata :=
      fun c hc => by rw [(cfg.chunker.mem_chunk hc).metadata]
    rw [List.flatMap_cons, others_append, ih, otherSources, otherSources, List.filter_cons]
    cases hd : ofTenant cfg a d.metadata with
    | true =>
      have hnil : others cfg a (cfg.chunker.chunk d) = [] :=
        List.filter_eq_nil_iff.2 fun c hc => by simp [hchunk c hc, hd]
      simp [hnil]
    | false =>
      have hall : others cfg a (cfg.chunker.chunk d) = cfg.chunker.chunk d :=
        List.filter_eq_self.2 fun c hc => by simp [hchunk c hc, hd]
      simp [hall]

/-- No item of `a` has the id of another item. -/
def IdsApart (cfg : RetrieverConfig V) (a : String) (items : Set (RetrievedDocument V)) : Prop :=
  ∀ x ∈ items, ∀ y ∈ items, ofTenant cfg a x.metadata = true → ofTenant cfg a y.metadata = false →
    x.id ≠ y.id

/-- The items of the retriever and the chunks of its pending documents are among these, and only
    items have vectors. -/
structure Within (cfg : RetrieverConfig V) (items : Set (RetrievedDocument V))
    (r : InMemoryRetriever V) : Prop where
  documents : ∀ x ∈ r.documents, x ∈ items
  pending : ∀ x ∈ r.pending.flatMap cfg.chunker.chunk, x ∈ items
  vectors : ∀ k v, r.vectors.get k = some v → ∃ x ∈ r.documents, x.id = k

/-- Two retrievers that everyone but `a` sees the same. -/
structure Alike (cfg : RetrieverConfig V) (a : String) (r r' : InMemoryRetriever V) : Prop where
  documents : others cfg a r.documents = others cfg a r'.documents
  pending : otherSources cfg a r.pending = otherSources cfg a r'.pending
  vectors : ∀ x ∈ others cfg a r.documents, r.vectors.get x.id = r'.vectors.get x.id

theorem Alike.refl (r : InMemoryRetriever V) : Alike cfg a r r := ⟨rfl, rfl, fun _ _ => rfl⟩

theorem Alike.symm {r r' : InMemoryRetriever V} (h : Alike cfg a r r') : Alike cfg a r' r :=
  ⟨h.documents.symm, h.pending.symm, fun x hx => (h.vectors x (by rwa [h.documents])).symm⟩

theorem Alike.trans {r r' r'' : InMemoryRetriever V} (h : Alike cfg a r r')
    (h' : Alike cfg a r' r'') : Alike cfg a r r'' :=
  ⟨h.documents.trans h'.documents, h.pending.trans h'.pending,
    fun x hx => (h.vectors x hx).trans (h'.vectors x (by rwa [← h.documents]))⟩

/-! ## Queries -/

/-- A query of another tenant sees what the others see. -/
theorem Alike.answer {r r' : InMemoryRetriever V} (h : Alike cfg a r r') {q : RetrievalQuery V}
    (hq : q.tenantId ≠ a) : r.answer cfg q = r'.answer cfg q := by
  have hvisible : ∀ x, visible cfg q x = true → ofTenant cfg a x.metadata = false := by
    intro x hx
    simp only [visible, Bool.and_eq_true, Bool.or_eq_true, decide_eq_true_eq] at hx
    rw [ofTenant, decide_eq_false_iff_not]
    rintro ht
    rcases hx.1 with hn | hn
    · rw [ht] at hn; cases hn
    · rw [ht] at hn
      cases hn
      exact hq rfl
  have hfilter : ∀ r : InMemoryRetriever V, r.documents.filter (visible cfg q) =
      (others cfg a r.documents).filter (visible cfg q) := by
    intro r
    rw [others, List.filter_filter]
    refine List.filter_congr fun x _ => ?_
    cases hx : visible cfg q x with
    | false => simp
    | true => simp [hvisible x hx]
  have hscored : ∀ queryVector,
      (r.documents.filter (visible cfg q)).filterMap (scored cfg q queryVector r) =
        (r'.documents.filter (visible cfg q)).filterMap (scored cfg q queryVector r') := by
    intro queryVector
    rw [hfilter r, hfilter r', ← h.documents]
    refine List.filterMap_congr fun x hx => ?_
    simp only [scored, h.vectors x (List.mem_filter.1 hx).1]
  simp only [InMemoryRetriever.answer, hscored]

/-! ## Ingestion -/

section
variable {items : Set (RetrievedDocument V)} (hapart : IdsApart cfg a items)
include hapart

/-- An item with the id of another tenant's item is not of tenant `a`. -/
theorem IdsApart.of_id {x y : RetrievedDocument V} (hx : x ∈ items) (hy : y ∈ items)
    (hother : ofTenant cfg a x.metadata = false) (hid : y.id = x.id) :
    ofTenant cfg a y.metadata = false := by
  by_contra h
  exact hapart y hy x hx (by simpa using h) hother hid

/-- Which items of the others are stale depends on what they see. -/
theorem mem_staleIds {documents chunks : List (RetrievedDocument V)}
    (hdocuments : ∀ x ∈ documents, x ∈ items) {x : RetrievedDocument V} (hx : x ∈ items)
    (hother : ofTenant cfg a x.metadata = false) :
    x.id ∈ staleIds cfg documents chunks ↔
      x.id ∈ staleIds cfg (others cfg a documents) (others cfg a chunks) := by
  simp only [staleIds, List.mem_map, List.mem_filter, decide_eq_true_eq]
  constructor
  · rintro ⟨y, ⟨hy, c, hc, howner⟩, hid⟩
    have hy' := hapart.of_id hx (hdocuments y hy) hother hid
    have hc' : ofTenant cfg a c.metadata = false := by
      rw [ofTenant, show tenantOf cfg c.metadata = tenantOf cfg y.metadata from
        congrArg Prod.snd howner]
      exact hy'
    exact ⟨y, ⟨mem_others.2 ⟨hy, hy'⟩, c, mem_others.2 ⟨hc, hc'⟩, howner⟩, hid⟩
  · rintro ⟨y, ⟨hy, c, hc, howner⟩, hid⟩
    exact ⟨y, ⟨(mem_others.1 hy).1, c, (mem_others.1 hc).1, howner⟩, hid⟩

/-- The items of the others after `ingest`. -/
theorem others_replace {r : InMemoryRetriever V} {chunks : List (RetrievedDocument V)}
    (hr : ∀ x ∈ r.documents, x ∈ items) (vectors : List (List ℚ)) :
    others cfg a (r.replace cfg chunks vectors).documents =
      ((others cfg a r.documents).filter fun x =>
        x.id ∉ staleIds cfg (others cfg a r.documents) (others cfg a chunks)) ++
        others cfg a chunks := by
  have hstale : ∀ x ∈ r.documents, ofTenant cfg a x.metadata = false →
      (x.id ∈ staleIds cfg r.documents chunks ↔
        x.id ∈ staleIds cfg (others cfg a r.documents) (others cfg a chunks)) :=
    fun x hx hother => mem_staleIds hapart hr (hr x hx) hother
  rw [replace, others_append]
  congr 1
  generalize staleIds cfg (others cfg a r.documents) (others cfg a chunks) = stale at hstale ⊢
  rw [others, others, List.filter_filter, List.filter_filter]
  refine List.filter_congr fun x hx => ?_
  cases hother : ofTenant cfg a x.metadata with
  | true => simp
  | false => simp [hstale x hx hother]

/-- The vectors of the others' items after `ingest`. -/
theorem vectors_replace {r : InMemoryRetriever V} {chunks : List (RetrievedDocument V)}
    (hr : ∀ x ∈ r.documents, x ∈ items) (hchunks : ∀ x ∈ chunks, x ∈ items)
    (f : String → List ℚ) {x : RetrievedDocument V}
    (hx : x ∈ others cfg a (r.replace cfg chunks (chunks.map fun c => f c.text)).documents) :
    (r.replace cfg chunks (chunks.map fun c => f c.text)).vectors.get x.id =
      (((others cfg a chunks).filter fun c => c.id = x.id).getLast?.map fun c => f c.text).or
        (r.vectors.get x.id) := by
  obtain ⟨hmem, hother⟩ := mem_others.1 hx
  have hitem : x ∈ items := by
    rcases List.mem_append.1 hmem with h | h
    · exact hr x (List.mem_filter.1 h).1
    · exact hchunks x h
  have hzip : (chunks.map (·.id)).zip (chunks.map fun c => f c.text) =
      chunks.map fun c => (c.id, f c.text) := by
    rw [List.zip_map']
  have hsame : (chunks.filter fun c => c.id = x.id) =
      (others cfg a chunks).filter fun c => c.id = x.id := by
    rw [others, List.filter_filter]
    refine List.filter_congr fun c hc => ?_
    by_cases hid : c.id = x.id
    · simp [hid, hapart.of_id hitem (hchunks c hc) hother hid]
    · simp [hid]
  rw [replace, get_updateVectors, hzip, List.filter_map, ← hsame]
  simp only [Function.comp_def, List.getLast?_map, Option.map_map]
  cases hlast : (chunks.filter fun c => c.id = x.id).getLast? with
  | some c => rfl
  | none =>
    have hold : x.id ∉ staleIds cfg r.documents chunks := by
      rcases List.mem_append.1 hmem with h | h
      · simpa using (List.mem_filter.1 h).2
      · -- the item is no new chunk
        rw [List.getLast?_eq_none_iff, List.filter_eq_nil_iff] at hlast
        exact absurd (hlast x h) (by simp)
    simp only [Option.map_none, Option.none_or, get_popVectors, if_neg hold]

/-- What the others see after the ingestion of chunks. -/
structure Ingested (cfg : RetrieverConfig V) (a : String) (f : String → List ℚ)
    (chunks : List (RetrievedDocument V)) (r s : InMemoryRetriever V) : Prop where
  pending : s.pending = r.pending
  documents : others cfg a s.documents =
    ((others cfg a r.documents).filter fun x =>
      x.id ∉ staleIds cfg (others cfg a r.documents) (others cfg a chunks)) ++ others cfg a chunks
  vectors : ∀ x ∈ others cfg a s.documents, s.vectors.get x.id =
    (((others cfg a chunks).filter fun c => c.id = x.id).getLast?.map fun c => f c.text).or
      (r.vectors.get x.id)

omit hapart in
/-- The items and the vectors after `ingest`. -/
theorem Within.replace {r : InMemoryRetriever V} (hr : Within cfg items r)
    {chunks : List (RetrievedDocument V)} (hchunks : ∀ x ∈ chunks, x ∈ items)
    (f : String → List ℚ) :
    Within cfg items (r.replace cfg chunks (chunks.map fun c => f c.text)) := by
  refine ⟨fun x hx => ?_, hr.pending, fun k v hv => ?_⟩
  · rcases List.mem_append.1 hx with h | h
    · exact hr.documents x (List.mem_filter.1 h).1
    · exact hchunks x h
  · simp only [InMemoryRetriever.replace, get_updateVectors, get_popVectors, List.zip_map'] at hv
    simp only [InMemoryRetriever.replace, List.mem_append]
    cases hlast : ((chunks.map fun c => (c.id, f c.text)).filter fun i => i.1 = k).getLast? with
    | some i =>
      have hi := List.mem_filter.1 (List.mem_of_getLast? hlast)
      obtain ⟨c, hc, rfl⟩ := List.mem_map.1 hi.1
      exact ⟨c, Or.inr hc, by simpa using hi.2⟩
    | none =>
      rw [hlast, Option.map_none, Option.none_or] at hv
      split at hv
      · cases hv
      · rename_i hstale
        obtain ⟨x, hx, rfl⟩ := hr.vectors k v hv
        exact ⟨x, Or.inl (List.mem_filter.2 ⟨hx, by simpa using hstale⟩), rfl⟩

theorem exists_ingested {f : String → List ℚ}
    (hembed : ∀ texts, cfg.embed texts = .ok (texts.map f)) {r : InMemoryRetriever V}
    {documents : List (SourceDocument V)} (hr : Within cfg items r)
    (hd : ∀ x ∈ documents.flatMap cfg.chunker.chunk, x ∈ items) :
    ∃ s n, r.ingest cfg documents = .ok (s, n) ∧ Within cfg items s ∧
      Ingested cfg a f (documents.flatMap cfg.chunker.chunk) r s := by
  simp only [ingest]
  generalize documents.flatMap cfg.chunker.chunk = chunks at hd ⊢
  by_cases hnil : chunks = []
  · subst hnil
    exact ⟨r, 0, rfl, hr, rfl, by simp [others, staleIds], by simp [others]⟩
  · have hvectors : cfg.embed (chunks.map (·.text)) = .ok (chunks.map fun c => f c.text) := by
      rw [hembed, List.map_map]
      rfl
    refine ⟨r.replace cfg chunks (chunks.map fun c => f c.text), chunks.length, ?_,
      hr.replace hd f, rfl, others_replace hapart hr.documents _,
      fun x hx => vectors_replace hapart hr.documents hd f hx⟩
    rw [if_neg hnil, hvectors]
    exact if_neg (by simp)

omit hapart in
/-- **Ingestion** of chunks that are the same but for those of `a`. -/
theorem Alike.ingested {f : String → List ℚ} {r r' s s' : InMemoryRetriever V}
    {chunks chunks' : List (RetrievedDocument V)} (h : Alike cfg a r r')
    (hs : Ingested cfg a f chunks r s) (hs' : Ingested cfg a f chunks' r' s')
    (hchunks : others cfg a chunks = others cfg a chunks') : Alike cfg a s s' := by
  have hdocuments : others cfg a s.documents = others cfg a s'.documents := by
    rw [hs.documents, hs'.documents, h.documents, hchunks]
  refine ⟨hdocuments, by rw [hs.pending, hs'.pending, h.pending], fun x hx => ?_⟩
  rw [hs.vectors x hx, hs'.vectors x (hdocuments ▸ hx), hchunks]
  cases hlast : ((others cfg a chunks').filter fun c => c.id = x.id).getLast? with
  | some c => rfl
  | none =>
    -- no chunk has this id, so the item was there before
    rw [List.getLast?_eq_none_iff, List.filter_eq_nil_iff] at hlast
    rw [hs.documents] at hx
    rcases List.mem_append.1 hx with hx | hx
    · simp only [Option.map_none, Option.none_or]
      exact h.vectors x (List.mem_filter.1 hx).1
    · exact absurd (hlast x (hchunks ▸ hx)) (by simp)

/-! ## Deletion -/

omit hapart in
theorem selects_ofTenant {t d : String} {id : Option String} {metadata : Dict String (MetaValue V)}
    (h : selects cfg t d id metadata = true) : ofTenant cfg a metadata = decide (t = a) := by
  simp only [selects, Bool.and_eq_true, decide_eq_true_eq] at h
  simp [ofTenant, h.2]

omit hapart in
/-- **Deletion** by another tenant. -/
theorem Alike.delete {r r' : InMemoryRetriever V} (h : Alike cfg a r r') {t : String} (ht : t ≠ a)
    (d : String) : Alike cfg a (r.delete cfg t d).1 (r'.delete cfg t d).1 := by
  have hids : ∀ documents : List (RetrievedDocument V), selectedIds cfg t d documents =
      selectedIds cfg t d (others cfg a documents) := by
    intro documents
    rw [selectedIds, selectedIds, others, List.filter_filter]
    congr 3
    funext x
    cases hx : selects cfg t d x.documentId x.metadata with
    | false => simp
    | true => simp [selects_ofTenant hx, ht]
  have hsame : selectedIds cfg t d r.documents = selectedIds cfg t d r'.documents := by
    rw [hids r.documents, hids r'.documents, h.documents]
  have hfilter : ∀ (p : RetrievedDocument V → Bool) (documents : List (RetrievedDocument V)),
      others cfg a (documents.filter p) = (others cfg a documents).filter p := by
    intro p documents
    simp only [others, List.filter_filter, Bool.and_comm]
  refine ⟨?_, ?_, fun x hx => ?_⟩
  · simp only [InMemoryRetriever.delete, hsame, hfilter, h.documents]
  · have hpending : ∀ (p : SourceDocument V → Bool) (documents : List (SourceDocument V)),
        otherSources cfg a (documents.filter p) = (otherSources cfg a documents).filter p := by
      intro p documents
      simp only [otherSources, List.filter_filter, Bool.and_comm]
    simp only [InMemoryRetriever.delete, hpending, h.pending]
  · simp only [InMemoryRetriever.delete, hfilter] at hx ⊢
    rw [get_popVectors, get_popVectors, hsame, h.vectors x (List.mem_filter.1 hx).1]

/-- **Deletion** by tenant `a` itself. -/
theorem delete_own {r : InMemoryRetriever V} (hr : ∀ x ∈ r.documents, x ∈ items) (d : String) :
    Alike cfg a (r.delete cfg a d).1 r := by
  have hids : ∀ x ∈ others cfg a r.documents, x.id ∉ selectedIds cfg a d r.documents := by
    intro x hx hid
    obtain ⟨hmem, hother⟩ := mem_others.1 hx
    simp only [selectedIds, List.mem_dedup, List.mem_map, List.mem_filter] at hid
    obtain ⟨y, ⟨hy, hselects⟩, hid⟩ := hid
    have := hapart.of_id (hr x hmem) (hr y hy) hother hid
    rw [selects_ofTenant hselects] at this
    simp at this
  have hdocuments : others cfg a (r.delete cfg a d).1.documents = others cfg a r.documents := by
    simp only [delete, others, List.filter_filter]
    refine List.filter_congr fun x hx => ?_
    cases hother : ofTenant cfg a x.metadata with
    | true => simp
    | false => simpa using hids x (mem_others.2 ⟨hx, hother⟩)
  refine ⟨hdocuments, ?_, fun x hx => ?_⟩
  · simp only [delete, otherSources, List.filter_filter]
    refine List.filter_congr fun x hx => ?_
    cases hx : selects cfg a d (some x.id) x.metadata with
    | false => simp
    | true => simp [selects_ofTenant hx]
  · rw [hdocuments] at hx
    simp only [delete, get_popVectors, if_neg (hids x hx)]

end

/-! ## Calls -/

/-- A call for documents of tenant `a`. -/
def isOf (cfg : RetrieverConfig V) (a : String) : RetrieverCall V → Bool
  | .ingest documents => documents.all fun d => ofTenant cfg a d.metadata
  | .delete tenantId _ => tenantId = a
  | _ => false

/-- The items that a call brings in. -/
def brings (cfg : RetrieverConfig V) : RetrieverCall V → List (RetrievedDocument V)
  | .ingest documents => documents.flatMap cfg.chunker.chunk
  | .add document => [document]
  | .addSource document => cfg.chunker.chunk document
  | _ => []

section
variable {items : Set (RetrievedDocument V)} {f : String → List ℚ} {r r' : InMemoryRetriever V}

theorem Within.delete (h : Within cfg items r) (t d : String) :
    Within cfg items (r.delete cfg t d).1 := by
  refine ⟨fun x hx => h.documents x (List.mem_filter.1 hx).1, fun x hx => h.pending x ?_, ?_⟩
  · obtain ⟨s, hs, hx⟩ := List.mem_flatMap.1 hx
    exact List.mem_flatMap.2 ⟨s, (List.mem_filter.1 hs).1, hx⟩
  · intro k v hv
    simp only [InMemoryRetriever.delete, get_popVectors] at hv ⊢
    split at hv
    · cases hv
    · rename_i hids
      obtain ⟨x, hx, rfl⟩ := h.vectors k v hv
      exact ⟨x, List.mem_filter.2 ⟨hx, by simpa using hids⟩, rfl⟩

/-- Without pending documents nothing is to be ingested. -/
theorem ingestPending_eq (r : InMemoryRetriever V) : r.ingestPending cfg =
    (InMemoryRetriever.ingest cfg r.pending { r with pending := [] }).map (·.1) := by
  unfold ingestPending
  split
  · rename_i hnil
    obtain ⟨documents, vectors, pending⟩ := r
    subst hnil
    rfl
  · rfl

variable (hapart : IdsApart cfg a items) (hembed : ∀ texts, cfg.embed texts = .ok (texts.map f))
include hapart hembed

/-- The pending documents are ingested. -/
theorem ingestPending_alike (hr : Within cfg items r) (hr' : Within cfg items r')
    (h : Alike cfg a r r') : ∃ s s', r.ingestPending cfg = .ok s ∧ r'.ingestPending cfg = .ok s' ∧
      Alike cfg a s s' ∧ Within cfg items s ∧ Within cfg items s' := by
  have hempty : ∀ {r : InMemoryRetriever V}, Within cfg items r →
      Within cfg items { r with pending := [] } :=
    fun hr => ⟨hr.documents, by simp, hr.vectors⟩
  obtain ⟨s, n, hs, hw, hi⟩ := exists_ingested hapart hembed (hempty hr) hr.pending
  obtain ⟨s', n', hs', hw', hi'⟩ := exists_ingested hapart hembed (hempty hr') hr'.pending
  refine ⟨s, s', by rw [ingestPending_eq, hs]; rfl, by rw [ingestPending_eq, hs']; rfl, ?_, hw, hw'⟩
  have hnone : Alike cfg a { r with pending := [] } { r' with pending := [] } :=
    ⟨h.documents, rfl, h.vectors⟩
  refine hnone.ingested hi hi' ?_
  rw [others_chunks, others_chunks, h.pending]

omit hembed in
/-- A vector under the id of another tenant's item belongs to an item that the others see. -/
theorem Alike.vector {x : RetrievedDocument V} (h : Alike cfg a r r') (hr : Within cfg items r)
    (hr' : Within cfg items r') (hx : x ∈ items) (hother : ofTenant cfg a x.metadata = false) :
    r.vectors.get x.id = r'.vectors.get x.id := by
  have hseen : ∀ {r : InMemoryRetriever V}, Within cfg items r → ∀ v, r.vectors.get x.id = some v →
      ∃ y ∈ others cfg a r.documents, y.id = x.id := by
    intro r hr v hv
    obtain ⟨y, hy, hid⟩ := hr.vectors _ v hv
    exact ⟨y, mem_others.2 ⟨hy, hapart.of_id hx (hr.documents y hy) hother hid⟩, hid⟩
  cases hv : r.vectors.get x.id with
  | some v =>
    obtain ⟨y, hy, hid⟩ := hseen hr v hv
    rw [← hid, ← h.vectors y hy, hid, hv]
  | none =>
    cases hv' : r'.vectors.get x.id with
    | none => rfl
    | some v =>
      obtain ⟨y, hy, hid⟩ := hseen hr' v hv'
      have := h.vectors y (by rwa [h.documents])
      rw [hid, hv, hv'] at this
      cases this

/-- **Every call keeps two retrievers alike.** -/
theorem after_alike (hr : Within cfg items r) (hr' : Within cfg items r') (h : Alike cfg a r r')
    {c : RetrieverCall V} (hc : ∀ x ∈ brings cfg c, x ∈ items) :
    Alike cfg a (r.after cfg c) (r'.after cfg c) ∧ Within cfg items (r.after cfg c) ∧
      Within cfg items (r'.after cfg c) := by
  cases c with
  | ingest documents =>
    obtain ⟨s, n, hs, hw, hi⟩ := exists_ingested hapart hembed hr hc
    obtain ⟨s', n', hs', hw', hi'⟩ := exists_ingested hapart hembed hr' hc
    simp only [after, hs, hs']
    exact ⟨h.ingested hi hi' rfl, hw, hw'⟩
  | delete t d =>
    refine ⟨?_, hr.delete t d, hr'.delete t d⟩
    by_cases ht : t = a
    · subst ht
      exact ((delete_own hapart hr.documents d).trans h).trans
        (delete_own hapart hr'.documents d).symm
    · exact h.delete ht d
  | retrieve q =>
    obtain ⟨s, s', hs, hs', hi, hw, hw'⟩ := ingestPending_alike hapart hembed hr hr' h
    simp only [after, InMemoryRetriever.retrieve, hs, hs']
    exact ⟨hi, hw, hw'⟩
  | add d =>
    have hd : d ∈ items := hc d (by simp [brings])
    have hwithin : ∀ {r : InMemoryRetriever V}, Within cfg items r →
        Within cfg items (r.add d) := by
      intro r hr
      refine ⟨fun x hx => ?_, hr.pending, fun k v hv => ?_⟩
      · rcases List.mem_append.1 hx with hx | hx
        · exact hr.documents x hx
        · rw [List.mem_singleton.1 hx]; exact hd
      · obtain ⟨x, hx, hid⟩ := hr.vectors k v hv
        exact ⟨x, List.mem_append_left _ hx, hid⟩
    refine ⟨⟨?_, h.pending, fun x hx => ?_⟩, hwithin hr, hwithin hr'⟩
    · simp only [after, InMemoryRetriever.add, others_append, h.documents]
    · obtain ⟨hx, hother⟩ := mem_others.1 hx
      exact h.vector hapart hr hr' ((hwithin hr).documents x hx) hother
  | addSource d =>
    have hwithin : ∀ {r : InMemoryRetriever V}, Within cfg items r →
        Within cfg items (r.addSource d) := by
      intro r hr
      refine ⟨hr.documents, fun x hx => ?_, hr.vectors⟩
      simp only [InMemoryRetriever.addSource, List.flatMap_append, List.mem_append] at hx
      rcases hx with hx | hx
      · exact hr.pending x hx
      · exact hc x (by simpa [brings] using hx)
    refine ⟨⟨h.documents, ?_, h.vectors⟩, hwithin hr, hwithin hr'⟩
    have hpending := h.pending
    simp only [otherSources] at hpending
    simp only [after, InMemoryRetriever.addSource, otherSources, List.filter_append, hpending]

/-- **A call of `a` alone** changes nothing for the others. -/
theorem after_own (hr : Within cfg items r) {c : RetrieverCall V}
    (hc : ∀ x ∈ brings cfg c, x ∈ items) (hown : isOf cfg a c = true) :
    Alike cfg a (r.after cfg c) r ∧ Within cfg items (r.after cfg c) := by
  cases c with
  | ingest documents =>
    obtain ⟨s, n, hs, hw, hi⟩ := exists_ingested hapart hembed hr hc
    have hnone : Ingested cfg a f [] r r := ⟨rfl, by simp [others, staleIds], by simp [others]⟩
    simp only [after, hs]
    refine ⟨(Alike.refl r).ingested hi hnone ?_, hw⟩
    have hsources : otherSources cfg a documents = [] := by
      simp only [isOf, List.all_eq_true] at hown
      exact List.filter_eq_nil_iff.2 fun d hd => by simp [hown d hd]
    rw [others_chunks, hsources]
    rfl
  | delete t d =>
    obtain rfl : t = a := by simpa [isOf] using hown
    exact ⟨delete_own hapart hr.documents d, hr.delete t d⟩
  | retrieve q => cases hown
  | add d => cases hown
  | addSource d => cases hown

/-- **What a query of another tenant returns** does not depend on the calls of `a`. -/
theorem answers_eq {b : String} (hb : b ≠ a) {calls : List (RetrieverCall V)}
    (hcalls : ∀ c ∈ calls, ∀ x ∈ brings cfg c, x ∈ items) (hr : Within cfg items r)
    (hr' : Within cfg items r') (h : Alike cfg a r r') :
    answers cfg b r calls = answers cfg b r' (calls.filter fun c => !isOf cfg a c) := by
  induction calls generalizing r r' with
  | nil => rfl
  | cons c calls ih =>
    have hc := hcalls c List.mem_cons_self
    have hrest : ∀ c ∈ calls, ∀ x ∈ brings cfg c, x ∈ items :=
      fun c hc => hcalls c (List.mem_cons_of_mem _ hc)
    rw [List.filter_cons]
    cases hown : isOf cfg a c with
    | true =>
      obtain ⟨hr₁, hw₁⟩ := after_own hapart hembed hr hc hown
      have hnone : answers cfg b r (c :: calls) = answers cfg b (r.after cfg c) calls := by
        cases c <;> first | rfl | cases hown
      rw [hnone]
      exact ih hrest hw₁ hr' (hr₁.trans h)
    | false =>
      obtain ⟨h₁, hw₁, hw₁'⟩ := after_alike hapart hembed hr hr' h hc
      simp only [Bool.not_false, if_true, answers, ih hrest hw₁ hw₁' h₁]
      congr 1
      cases c with
      | retrieve q =>
        dsimp only
        split
        · rename_i hq
          obtain ⟨s, s', hs, hs', hi, -, -⟩ := ingestPending_alike hapart hembed hr hr' h
          simp only [InMemoryRetriever.retrieve, hs, hs', hi.answer (hq ▸ hb)]
        · rfl
      | _ => rfl

end

/-! ## The count of `delete` -/

/-- The items of tenant `a`. -/
def ownItems (cfg : RetrieverConfig V) (a : String) (documents : List (RetrievedDocument V)) :
    List (RetrievedDocument V) := documents.filter fun x => ofTenant cfg a x.metadata

/-- **`delete` counts the items of `a` that it removes**, if the document is not pending, exactly if
    they have different ids. -/
theorem delete_count_iff (r : InMemoryRetriever V) (d : String)
    (hpending : ∀ s ∈ r.pending, selects cfg a d (some s.id) s.metadata = false) :
    (ownItems cfg a r.documents).length =
        (ownItems cfg a (r.delete cfg a d).1.documents).length + (r.delete cfg a d).2 ↔
      (((ownItems cfg a r.documents).filter fun x =>
        x.id ∈ selectedIds cfg a d r.documents).map (·.id)).Nodup := by
  have hnone : (r.pending.filter fun s => selects cfg a d (some s.id) s.metadata) = [] :=
    List.filter_eq_nil_iff.2 fun s hs => by simp [hpending s hs]
  have hafter : ownItems cfg a (r.delete cfg a d).1.documents =
      (ownItems cfg a r.documents).filter fun x => x.id ∉ selectedIds cfg a d r.documents := by
    simp only [InMemoryRetriever.delete, ownItems, List.filter_filter, Bool.and_comm]
  rw [hafter]
  simp only [InMemoryRetriever.delete, hnone, List.length_nil, Nat.zero_add]
  have hmem : ∀ k, k ∈ selectedIds cfg a d r.documents ↔ k ∈ (((ownItems cfg a r.documents).filter
      fun x => x.id ∈ selectedIds cfg a d r.documents).map (·.id)) := by
    intro k
    simp only [List.mem_map, List.mem_filter, decide_eq_true_eq]
    constructor
    · intro hk
      have hk' := hk
      simp only [selectedIds, List.mem_dedup, List.mem_map, List.mem_filter] at hk'
      obtain ⟨x, ⟨hx, hselects⟩, rfl⟩ := hk'
      refine ⟨x, ⟨List.mem_filter.2 ⟨hx, ?_⟩, hk⟩, rfl⟩
      rw [selects_ofTenant hselects]
      simp
    · rintro ⟨x, ⟨-, hk⟩, rfl⟩
      exact hk
  have hnodup : (selectedIds cfg a d r.documents).Nodup := List.nodup_dedup _
  generalize selectedIds cfg a d r.documents = ids at hmem hnodup ⊢
  have hsplit : (ownItems cfg a r.documents).length =
      ((ownItems cfg a r.documents).filter fun x => x.id ∈ ids).length +
        ((ownItems cfg a r.documents).filter fun x => x.id ∉ ids).length := by
    rw [List.length_eq_length_filter_add fun x => decide (x.id ∈ ids)]
    simp only [decide_not]
  generalize ((ownItems cfg a r.documents).filter fun x => x.id ∈ ids) = removed at hmem hsplit ⊢
  have hlength : ids.length = ((removed.map (·.id)).dedup).length := by
    refine ((List.perm_ext_iff_of_nodup hnodup (List.nodup_dedup _)).2 fun k => ?_).length_eq
    rw [hmem k, List.mem_dedup]
  have hcount : (removed.map (·.id)).Nodup ↔ removed.length = ids.length := by
    rw [← List.dedup_eq_self, hlength]
    constructor
    · intro h
      rw [h, List.length_map]
    · intro h
      exact (List.dedup_sublist _).eq_of_length (by rw [← h, List.length_map])
  rw [hcount]
  omega

end InMemoryRetriever

/-! ## The theorem -/

/-- **Tenants do not interfere**: what the queries of another tenant return does not depend on the
    ingestions and deletions of tenant `a`, if no item of `a` has the id of another item; and
    `delete` counts the items it removes, if the document is not pending, exactly if they have
    different ids. -/
theorem tenants_apart (cfg : RetrieverConfig V) (f : String → List ℚ)
    (hembed : ∀ texts, cfg.embed texts = .ok (texts.map f)) (a : String) :
    (∀ b, b ≠ a → ∀ (documents : List (RetrievedDocument V)) (pending : List (SourceDocument V))
      (calls : List (RetrieverCall V)),
      InMemoryRetriever.IdsApart cfg a {x | x ∈ documents ++ pending.flatMap cfg.chunker.chunk ++
        calls.flatMap (InMemoryRetriever.brings cfg)} →
      InMemoryRetriever.answers cfg b ⟨documents, [], pending⟩ calls =
        InMemoryRetriever.answers cfg b ⟨documents, [], pending⟩
          (calls.filter fun c => !InMemoryRetriever.isOf cfg a c)) ∧
    ∀ (r : InMemoryRetriever V) (d : String),
      (∀ s ∈ r.pending, InMemoryRetriever.selects cfg a d (some s.id) s.metadata = false) →
      ((InMemoryRetriever.ownItems cfg a r.documents).length =
          (InMemoryRetriever.ownItems cfg a (r.delete cfg a d).1.documents).length +
            (r.delete cfg a d).2 ↔
        (((InMemoryRetriever.ownItems cfg a r.documents).filter fun x =>
          x.id ∈ InMemoryRetriever.selectedIds cfg a d r.documents).map (·.id)).Nodup) := by
  refine ⟨fun b hb documents pending calls hapart => ?_, InMemoryRetriever.delete_count_iff⟩
  have hwithin : InMemoryRetriever.Within cfg {x | x ∈ documents ++
      pending.flatMap cfg.chunker.chunk ++ calls.flatMap (InMemoryRetriever.brings cfg)}
      ⟨documents, [], pending⟩ :=
    ⟨fun x hx => List.mem_append_left _ (List.mem_append_left _ hx),
      fun x hx => List.mem_append_left _ (List.mem_append_right _ hx), fun k v hv => by cases hv⟩
  refine InMemoryRetriever.answers_eq hapart hembed hb (fun c hc x hx => ?_) hwithin hwithin
    (InMemoryRetriever.Alike.refl _)
  exact List.mem_append_right _ (List.mem_flatMap.2 ⟨c, hc, hx⟩)

namespace Sample

/-- A retriever with one vector for all texts. -/
def retriever : RetrieverConfig String where
  embed texts := .ok (texts.map fun _ => [1])
  cosine _ _ := 0
  terms s := {s}
  folded := id
  isNone _ := false

/-- A document of a tenant. -/
def note (id tenantId : String) : SourceDocument String :=
  { id, text := "note", source := "notes", metadata := [("tenant_id", .text tenantId)] }

/-- The query of tenant `b` for its notes. -/
def notes : RetrievalQuery String := { text := "note", tenantId := "b", mode := .keyword }

/-- Tenant `b` ingests a note, tenant `a` ingests and deletes a note with this id, and `b` asks. -/
def tenantCalls (id : String) : List (RetrieverCall String) :=
  [.ingest [note "x" "b"], .ingest [note id "a"], .delete "a" id, .retrieve notes]

end Sample

/-- Two tenants with different document ids. -/
theorem tenants_apart_notes :
    InMemoryRetriever.answers Sample.retriever "b" {} (Sample.tenantCalls "y") =
      InMemoryRetriever.answers Sample.retriever "b" {} ((Sample.tenantCalls "y").filter fun c =>
        !InMemoryRetriever.isOf Sample.retriever "a" c) := by
  have hids : ∀ x ∈ (Sample.tenantCalls "y").flatMap (InMemoryRetriever.brings Sample.retriever),
      ∀ y ∈ (Sample.tenantCalls "y").flatMap (InMemoryRetriever.brings Sample.retriever),
      InMemoryRetriever.ofTenant Sample.retriever "a" x.metadata = true →
      InMemoryRetriever.ofTenant Sample.retriever "a" y.metadata = false → x.id ≠ y.id := by
    decide +kernel
  exact (tenants_apart Sample.retriever (fun _ => [1]) (fun _ => rfl) "a").1 "b" (by decide) [] []
    (Sample.tenantCalls "y") hids

/-- Tenant `a` deletes its own note, and the note of tenant `b` with the same id is gone; and a
    pending document is counted as a removed chunk. -/
theorem tenants_interfere :
    (¬ ∀ calls : List (RetrieverCall String),
      InMemoryRetriever.answers Sample.retriever "b" {} calls =
        InMemoryRetriever.answers Sample.retriever "b" {}
          (calls.filter fun c => !InMemoryRetriever.isOf Sample.retriever "a" c)) ∧
    ¬ ∀ (r : InMemoryRetriever String) (d : String),
      (InMemoryRetriever.ownItems Sample.retriever "a" r.documents).length =
        (InMemoryRetriever.ownItems Sample.retriever "a"
          (r.delete Sample.retriever "a" d).1.documents).length +
          (r.delete Sample.retriever "a" d).2 := by
  constructor
  · intro h
    exact absurd (h (Sample.tenantCalls "x")) (by decide +kernel)
  · intro h
    exact absurd (h { pending := [Sample.note "x" "a"] } "x") (by decide +kernel)

end TracciaRuntime
