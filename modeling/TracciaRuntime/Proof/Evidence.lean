/-
  The filters of a retrieval builder and the documents in its evidence.

  A filter named by a request takes the place of the configured filter of that name, so the
  configured filters hold of what is placed in the evidence exactly as long as no request names
  one of them with another value.
-/
import TracciaRuntime.Context.Builder
import TracciaRuntime.Py.Result

namespace TracciaRuntime

open Py

variable {V : Type}

/-! ## Packing -/

theorem mem_packLoop {α : Type} {text : α → String} {a : α} {remaining : Int}
    {selected items : List α} (h : a ∈ packLoop text remaining selected items) :
    a ∈ selected ∨ a ∈ items := by
  induction items generalizing remaining selected with
  | nil => exact Or.inl h
  | cons item items ih =>
    simp only [packLoop] at h
    split_ifs at h with hskip hfull
    · exact (ih h).imp_right (List.mem_cons_of_mem _)
    · simp only [List.mem_append, List.mem_singleton] at h
      exact h.imp_right fun ha => by simp [ha]
    · rcases ih h with ha | ha
      · simp only [List.mem_append, List.mem_singleton] at ha
        exact ha.imp_right fun ha => by simp [ha]
      · exact Or.inr (List.mem_cons_of_mem _ ha)

theorem packLoop_singleton {α : Type} (text : α → String) (remaining : Int) (a : α) :
    packLoop text remaining [] [a] = [a] := by
  simp [packLoop]

/-! ## Filters -/

theorem nodup_keys_requestFilters (metadata : Dict String String) :
    (requestFilters (V := V) metadata).keys.Nodup :=
  Dict.nodup_keys_update _ (by simp [Dict.keys])

theorem metaValue_congr {isNone : V → Bool} {d d' : Dict String (MetaValue V)} {k : String}
    (h : d.get k = d'.get k) : metaValue isNone d k = metaValue isNone d' k := by
  rw [metaValue, metaValue, h]

/-- A dictionary of filters, key by key. -/
theorem admits_iff {isNone : V → Bool} {filters metadata : Dict String (MetaValue V)}
    (hn : filters.keys.Nodup) : Admits isNone filters metadata ↔ ∀ k v, filters.get k = some v →
      metaValue isNone metadata k = metaValue isNone filters k := by
  have hone : ∀ {k v}, filters.get k = some v →
      metaValue isNone [(k, v)] k = metaValue isNone filters k :=
    fun h => metaValue_congr (by rw [h]; simp [Dict.get])
  constructor
  · intro h k v hk
    exact (h (k, v) (Dict.mem_of_get hk)).trans (hone hk)
  · rintro h ⟨k, v⟩ hf
    have hk := Dict.get_of_mem hn hf
    exact (h k v hk).trans (hone hk).symm

theorem admits_self {isNone : V → Bool} {filters : Dict String (MetaValue V)}
    (hn : filters.keys.Nodup) : Admits isNone filters filters :=
  (admits_iff hn).2 fun _ _ _ => rfl

/-- No filter of the request gives a configured one another value. -/
def Respects (filters new : Dict String (MetaValue V)) : Prop :=
  ∀ k v v', filters.get k = some v → new.get k = some v' → v' = v

instance (filters new : Dict String (MetaValue V)) [DecidableEq V] :
    Decidable (Respects filters new) :=
  decidable_of_iff (∀ k ∈ filters.keys, ∀ v ∈ filters.get k, ∀ v' ∈ new.get k, v' = v)
    ⟨fun h k v v' hv hv' => h k (by
        by_contra hk
        rw [Dict.get_eq_none_iff.2 hk] at hv
        cases hv) v hv v' hv',
      fun h k _ v hv v' hv' => h k v v' hv hv'⟩

namespace Respects

theorem get_update {filters new : Dict String (MetaValue V)} (h : Respects filters new)
    (hn : new.keys.Nodup) {k : String} {v : MetaValue V} (hk : filters.get k = some v) :
    (filters.update new).get k = some v := by
  rw [Dict.get_update hn]
  cases hnew : new.get k with
  | none => simpa using hk
  | some v' => rw [h k v v' hk hnew]; rfl

/-- Then the request can only narrow the result. -/
theorem narrows {filters new : Dict String (MetaValue V)} (h : Respects filters new)
    (hf : filters.keys.Nodup) (hn : new.keys.Nodup) {isNone : V → Bool}
    {metadata : Dict String (MetaValue V)} (hm : Admits isNone (filters.update new) metadata) :
    Admits isNone filters metadata := by
  rw [admits_iff (Dict.nodup_keys_update _ hf)] at hm
  rw [admits_iff hf]
  intro k v hk
  have hku := h.get_update hn hk
  exact (hm k v hku).trans (metaValue_congr (hku.trans hk.symm))

end Respects

theorem mem_values_update {d new : Dict String (MetaValue V)} {v : MetaValue V}
    (h : v ∈ (d.update new).values) : v ∈ d.values ∨ v ∈ new.values := by
  induction new generalizing d with
  | nil => exact Or.inl h
  | cons i new ih =>
    have h : v ∈ ((d.set i.1 i.2).update new).values := h
    rcases ih h with h | h
    · rcases Dict.mem_values_set h with rfl | h
      · exact Or.inr (by simp [Dict.values])
      · exact Or.inl h
    · exact Or.inr (by simpa [Dict.values] using Or.inr h)

/-- The filters of a request are texts. -/
theorem get_requestFilters {metadata : Dict String String} {k : String} {v : MetaValue V}
    (h : (requestFilters metadata).get k = some v) : ∃ text, v = .text text := by
  have hv : v ∈ (requestFilters (V := V) metadata).values :=
    List.mem_map_of_mem (f := (·.2)) (Dict.mem_of_get h)
  rcases mem_values_update hv with hv | hv
  · simp [Dict.values] at hv
  · simp only [Dict.values, List.map_map, List.mem_map] at hv
    obtain ⟨i, -, hi⟩ := hv
    exact ⟨i.2, hi.symm⟩

/-- A text in the place of a configured value shows. -/
theorem respects_of_admits {filters : Dict String (MetaValue V)} {metadata : Dict String String}
    {isNone : V → Bool} (hf : filters.keys.Nodup)
    (h : Admits isNone filters (filters.update (requestFilters metadata))) :
    Respects filters (requestFilters metadata) := by
  intro k v v' hk hnew
  obtain ⟨text, rfl⟩ := get_requestFilters hnew
  have hm := (admits_iff hf).1 h k v hk
  have hget : (filters.update (requestFilters metadata)).get k = some (.text text) := by
    rw [Dict.get_update (nodup_keys_requestFilters _), hnew]
    rfl
  rw [metaValue, metaValue, hget, hk, Option.filter_some, if_pos rfl] at hm
  exact ((Option.filter_eq_some_iff.1 hm.symm).1 |> Option.some.inj).symm

/-! ## The evidence of a builder -/

namespace RetrievalContextBuilder

variable (b : RetrievalContextBuilder V) {isNone : V → Bool}

/-- `build` retrieves the document and places it in the evidence. -/
def Places (cache : Option (RetrievalCache V))
    (retrieve : RetrievalQuery V → Except Exn (List (RetrievedDocument V)))
    (kept : Dict String (List (RetrievedDocument V))) (s : RunState V)
    (d : RetrievedDocument V) : Prop :=
  ∃ found documents, b.retrieved cache retrieve kept s = .ok found ∧
    found.mapM (copied cache) = .ok documents ∧ d ∈ found ∧
    ∃ d' ∈ b.select documents, copied cache d = .ok d'

/-- The configured filters hold of every document in the evidence of builds for the runs, the
    last one first, and the filters of the requests only narrow the result. -/
def FiltersApply (isNone : V → Bool) (runs : List (RunState V)) : Prop :=
  ∀ s past, s :: past <:+ runs →
    (∀ metadata, Admits isNone (b.query s.request).filters metadata →
      Admits isNone b.filters metadata) ∧
    ∀ cache kept retrieve, (∀ c ∈ cache, b.Kept isNone c past kept) →
      HonoursFilters isNone retrieve →
      ∀ d, b.Places cache retrieve kept s d → Admits isNone b.filters d.metadata

variable {b}

theorem narrows_query {s : RunState V}
    (h : Respects b.filters (requestFilters s.request.metadata))
    {metadata : Dict String (MetaValue V)}
    (hm : Admits isNone (b.query s.request).filters metadata) :
    Admits isNone b.filters metadata :=
  h.narrows b.filters_nodup (nodup_keys_requestFilters _) hm

/-- What is kept passes the configured filters. -/
theorem Kept.admits {c : RetrievalCache V} {runs : List (RunState V)}
    {kept : Dict String (List (RetrievedDocument V))} (h : b.Kept isNone c runs kept)
    (hr : ∀ s ∈ runs, Respects b.filters (requestFilters s.request.metadata)) {key : String}
    {found : List (RetrievedDocument V)} (hk : kept.get key = some found) :
    ∀ d ∈ found, Admits isNone b.filters d.metadata := by
  induction h generalizing key found with
  | empty => cases hk
  | stored s retrieve _ honours _ hfound ih =>
    rw [Dict.get_set] at hk
    split_ifs at hk with heq
    · cases hk
      exact fun d hd => narrows_query (hr s List.mem_cons_self) (honours _ _ hfound d hd)
    · exact ih (fun s hs => hr s (List.mem_cons_of_mem _ hs)) hk
  | unstored s _ ih => exact ih (fun s hs => hr s (List.mem_cons_of_mem _ hs)) hk
  | gone key _ ih =>
    rw [Dict.get_erase] at hk
    split_ifs at hk
    exact ih hr hk

/-- What is retrieved passes the configured filters. -/
theorem retrieved_admits {cache : Option (RetrievalCache V)}
    {retrieve : RetrievalQuery V → Except Exn (List (RetrievedDocument V))}
    {kept : Dict String (List (RetrievedDocument V))} {s : RunState V} {past : List (RunState V)}
    (hkept : ∀ c ∈ cache, b.Kept isNone c past kept) (honours : HonoursFilters isNone retrieve)
    (hr : ∀ s' ∈ s :: past, Respects b.filters (requestFilters s'.request.metadata))
    {found : List (RetrievedDocument V)} (h : b.retrieved cache retrieve kept s = .ok found) :
    ∀ d ∈ found, Admits isNone b.filters d.metadata := by
  have hanswer : retrieve (b.query s.request) = .ok found →
      ∀ d ∈ found, Admits isNone b.filters d.metadata :=
    fun h d hd => narrows_query (hr s List.mem_cons_self) (honours _ _ h d hd)
  cases cache with
  | none => exact hanswer h
  | some c =>
    obtain ⟨key, -, h⟩ := bind_eq_ok.1 h
    cases hget : key.bind kept.get with
    | none => exact hanswer (by rw [hget] at h; exact h)
    | some kept' =>
      rw [hget] at h
      cases h
      obtain ⟨k, -, hk⟩ := Option.bind_eq_some_iff.1 hget
      exact (hkept c rfl).admits (fun s' hs' => hr s' (List.mem_cons_of_mem _ hs')) hk

/-- A retriever that finds one document, which passes the filters of the query and no others. -/
def echo (q : RetrievalQuery V) : Except Exn (List (RetrievedDocument V)) :=
  .ok (if q.filters.keys.Nodup then
    [{ id := "d", text := "", source := "", metadata := q.filters }] else [])

theorem honours_echo : HonoursFilters isNone (echo (V := V)) := by
  intro q documents h d hd
  cases h
  split_ifs at hd with hn
  · simp only [List.mem_singleton] at hd
    subst hd
    exact admits_self hn
  · cases hd

/-- Without a cache it is in the evidence. -/
theorem places_echo (s : RunState V) : b.Places none echo [] s
    { id := "d", text := "", source := "", metadata := (b.query s.request).filters } := by
  have hn : (b.query s.request).filters.keys.Nodup := Dict.nodup_keys_update _ b.filters_nodup
  have hfound : echo (b.query s.request) =
      .ok [{ id := "d", text := "", source := "", metadata := (b.query s.request).filters }] := by
    rw [echo, if_pos hn]
  refine ⟨_, [_], hfound, rfl, List.mem_singleton_self _, _, ?_, rfl⟩
  rw [select, packLoop_singleton]
  exact List.mem_singleton_self _

theorem FiltersApply.respects {runs : List (RunState V)} (h : b.FiltersApply isNone runs) :
    ∀ s ∈ runs, Respects b.filters (requestFilters s.request.metadata) := by
  intro s hs
  obtain ⟨newer, past, rfl⟩ := List.append_of_mem hs
  have happly := (h s past (List.suffix_append _ _)).2 none [] echo (fun c hc => by cases hc)
    honours_echo _ (places_echo s)
  exact respects_of_admits b.filters_nodup happly

/-- **Configured filters.** They hold of the evidence of all builds exactly if no request gives
    one of them another value. -/
theorem filters_apply_iff (b : RetrievalContextBuilder V) (isNone : V → Bool)
    (runs : List (RunState V)) : b.FiltersApply isNone runs ↔
      ∀ s ∈ runs, Respects b.filters (requestFilters s.request.metadata) := by
  refine ⟨FiltersApply.respects, fun hr s past hsuffix => ?_⟩
  have hs : ∀ s' ∈ s :: past, Respects b.filters (requestFilters s'.request.metadata) :=
    fun s' hs' => hr s' (hsuffix.subset hs')
  refine ⟨fun metadata => narrows_query (hs s List.mem_cons_self), ?_⟩
  rintro cache kept retrieve hkept honours d ⟨found, documents, hfound, -, hd, -⟩
  exact retrieved_admits hkept honours hs hfound d hd

end RetrievalContextBuilder

/-! ## The in-memory retriever -/

namespace InMemoryRetriever

variable {cfg : RetrieverConfig V} {q : RetrievalQuery V} {d : RetrievedDocument V}

theorem mem_values_foldl {K α : Type} {step : Dict K α → α → Dict K α}
    (hstep : ∀ selected x, ∀ y ∈ (step selected x).values, y = x ∨ y ∈ selected.values) {y : α}
    {items : List α} {selected : Dict K α} (h : y ∈ (items.foldl step selected).values) :
    y ∈ selected.values ∨ y ∈ items := by
  induction items generalizing selected with
  | nil => exact Or.inl h
  | cons x items ih =>
    rcases ih h with hy | hy
    · rcases hstep selected x y hy with rfl | hy
      · exact Or.inr List.mem_cons_self
      · exact Or.inl hy
    · exact Or.inr (List.mem_cons_of_mem _ hy)

theorem mem_deduplicate {documents : List (RetrievedDocument V)}
    (h : d ∈ deduplicate cfg documents) : d ∈ documents := by
  refine (mem_values_foldl (fun selected item y hy => ?_) h).resolve_left (by simp [Dict.values])
  dsimp only at hy
  split at hy
  · exact Dict.mem_values_set hy
  · split at hy
    · exact Dict.mem_values_set hy
    · exact Or.inr hy

theorem scored_metadata {queryVector : List ℚ} {r : InMemoryRetriever V}
    {d' : RetrievedDocument V} (h : scored cfg q queryVector r d = some d') :
    d'.metadata = d.metadata := by
  simp only [scored] at h
  split at h
  · cases h; rfl
  · cases h

/-- What is answered are items that pass the checks, if the reranker only picks from what it is
    given. -/
theorem mem_answer [DecidableEq V] {r : InMemoryRetriever V} {documents : List (RetrievedDocument V)}
    (hrerank : ∀ rerank ∈ cfg.rerank, ∀ text documents ranked,
      rerank text documents = .ok ranked → ranked ⊆ documents)
    (h : r.answer cfg q = .ok documents) (hd : d ∈ documents) :
    ∃ item ∈ r.documents, visible cfg q item = true ∧ d.metadata = item.metadata := by
  have hresults : ∀ queryVector, d ∈ (deduplicate cfg ((r.documents.filter
      (visible cfg q)).filterMap (scored cfg q queryVector r))).mergeSort ranksBefore →
      ∃ item ∈ r.documents, visible cfg q item = true ∧ d.metadata = item.metadata := by
    intro queryVector hd
    obtain ⟨item, hitem, hscored⟩ :=
      List.mem_filterMap.1 (mem_deduplicate (List.mem_mergeSort.1 hd))
    obtain ⟨hmem, hvisible⟩ := List.mem_filter.1 hitem
    exact ⟨item, hmem, hvisible, scored_metadata hscored⟩
  -- the two modes differ in the vector of the query only
  rw [answer] at h
  cases hr : cfg.rerank with
  | none =>
    simp only [hr] at h
    split at h <;> (obtain ⟨queryVector, -, h⟩ := bind_eq_ok.1 h)
    all_goals
      cases h
      exact hresults queryVector (List.mem_of_mem_take hd)
  | some rerank =>
    simp only [hr] at h
    split at h <;> (obtain ⟨queryVector, -, h⟩ := bind_eq_ok.1 h)
    all_goals
      obtain ⟨ranked, hranked, h⟩ := bind_eq_ok.1 h
      cases h
      exact hresults queryVector (hrerank rerank hr _ _ _ hranked (List.mem_of_mem_take hd))

/-- The retriever honours the filters. -/
theorem honours [DecidableEq V] (r : InMemoryRetriever V)
    (hrerank : ∀ rerank ∈ cfg.rerank, ∀ text documents ranked,
      rerank text documents = .ok ranked → ranked ⊆ documents) :
    HonoursFilters cfg.isNone fun q => (r.retrieve cfg q).2 := by
  intro q documents h d hd
  simp only [retrieve] at h
  split at h
  · cases h
  · obtain ⟨item, -, hvisible, hmetadata⟩ := mem_answer hrerank h hd
    simp only [visible, Bool.and_eq_true, List.all_eq_true, decide_eq_true_eq] at hvisible
    rw [hmetadata]
    exact hvisible.2

end InMemoryRetriever

namespace Sample

/-- A builder for public documents. -/
def publicBuilder : RetrievalContextBuilder Int where
  name := "handbook"
  filters := [("category", .text "public")]

/-- A run whose request asks for internal ones. -/
def internalRun : RunState Int where
  id := "r"
  sessionId := "s"
  request := {
    agent := "a"
    input := "q"
    tenantId := "t"
    userId := "u"
    metadata := [("retrieval_filter.category", "internal")] }

end Sample

/-- The request wins. -/
theorem filters_overridden :
    ¬ Sample.publicBuilder.FiltersApply (fun _ => false) [Sample.internalRun] := by
  intro h
  have hr := h.respects Sample.internalRun List.mem_cons_self
  revert hr
  decide

end TracciaRuntime
