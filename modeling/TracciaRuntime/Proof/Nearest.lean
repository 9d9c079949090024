/-
  What the FAISS retriever finds.

  * `index_eq`: the rows of the index are the vectors of the records, whatever calls of `ingest`
    and `delete` have been made, in any order and with whatever vectors;
  * `hits`: the records in the order of the search, each with its score; `retrieve` returns the
    first of them that match the query.
-/
import TracciaRuntime.Retrieval.Faiss
import TracciaRuntime.Proof.Sidecar

namespace TracciaRuntime

open Py Machine

variable {V : Type}

namespace FaissRetriever

variable {cfg : FaissConfig V} {lib : FaissLib V} {s s' : FaissRetriever V}

/-! ## The index -/

/-- The embedder answers each call in its own way. -/
def stepWith (cfg : FaissConfig V) (s : FaissRetriever V)
    (a : (List String → Except Exn (List (List ℚ))) × FaissStep V) : Option (FaissRetriever V) :=
  step { cfg with embed := a.1 } s a.2

/-- The retriever is not built again. -/
def Running (_ : FaissRetriever V) (a : (List String → Except Exn (List (List ℚ))) × FaissStep V) :
    Prop :=
  a.2 ≠ .crash ∧ a.2 ≠ .load

theorem index_rebuilt {t : Nat} {records : List (FaissRecord V)} :
    (rebuilt cfg t records s).index = rebuild cfg records ∧
      (rebuilt cfg t records s).records = records := by
  unfold rebuilt
  dsimp only
  split <;> exact ⟨rfl, rfl⟩

theorem write_same {t : Nat} {p : Persist V} :
    (write cfg t s p).index = s.index ∧ (write cfg t s p).records = s.records := by
  cases p with
  | indexed =>
    simp only [write]
    split <;> exact ⟨rfl, rfl⟩
  | _ => exact ⟨rfl, rfl⟩

theorem index_step {a : (List String → Except Exn (List (List ℚ))) × FaissStep V}
    (h : s.index = rebuild cfg s.records) (ha : Running s a) (hs : stepWith cfg s a = some s') :
    s'.index = rebuild cfg s'.records := by
  obtain ⟨embed, a⟩ := a
  have hrebuilt : ∀ {t records}, (rebuilt { cfg with embed := embed } t records s).index =
      rebuild cfg (rebuilt { cfg with embed := embed } t records s).records := by
    intro t records
    rw [index_rebuilt.1, index_rebuilt.2]
    rfl
  cases a with
  | ingest t documents =>
    simp only [stepWith, step] at hs
    split at hs
    · split at hs
      · cases hs; exact hrebuilt
      · cases hs; exact h
    · cases hs
  | delete t tenantId documentId =>
    simp only [stepWith, step] at hs
    split at hs
    · split at hs
      · cases hs; exact hrebuilt
      · rename_i hlt
        have hsame : FaissRetriever.delete tenantId documentId s.records = s.records :=
          List.filter_sublist.eq_of_length_le (not_lt.1 hlt)
        rw [hsame] at hs
        cases hs
        exact h
    · cases hs
  | write t =>
    obtain ⟨p, -, rfl⟩ := Option.map_eq_some_iff.1 hs
    rw [write_same.1, write_same.2]
    exact h
  | leave t =>
    simp only [stepWith, step] at hs
    split at hs
    · cases hs; exact h
    · cases hs
  | cancel t =>
    simp only [stepWith, step] at hs
    split at hs
    · split at hs <;> (cases hs; exact h)
    · cases hs
  | crash => exact absurd rfl ha.1
  | load => exact absurd rfl ha.2

/-- **The rows are the vectors of the records**, position by position. -/
theorem index_eq (h : Steps (stepWith cfg) Running {} s) : s.index = rebuild cfg s.records :=
  h.keeps (I := fun s => s.index = rebuild cfg s.records) rfl fun _ _ _ => index_step

/-! ## The search -/

/-- All rows are found, in descending order of their scores, which are the inner products. -/
structure Complete (lib : FaissLib V) (product : List ℚ → List ℚ → ℚ) : Prop where
  all : ∀ index vector, ((lib.search index vector index.length).map Prod.snd).Perm
    ((List.range index.length).map Int.ofNat)
  descending : ∀ index vector,
    (lib.search index vector index.length).Pairwise fun a b => b.1 ≤ a.1
  own : ∀ index vector, ∀ row ∈ lib.search index vector index.length,
    ∀ x, index[row.2.toNat]? = some x → row.1 = product vector x

/-- The record of a row that is found. -/
def recordAt (records : List (FaissRecord V)) (index : Int) : Option (FaissRecord V) :=
  if index < 0 then none else records[index.toNat]?

/-- The records of the rows, with their scores. -/
def hits (records : List (FaissRecord V)) (rows : List (ℚ × Int)) : List (ℚ × FaissRecord V) :=
  rows.filterMap fun row => (recordAt records row.2).map fun r => (row.1, r)

/-- The record answers the query. -/
def Matching [DecidableEq V] (lib : FaissLib V) (q : RetrievalQuery V) (hit : ℚ × FaissRecord V) :
    Bool :=
  hit.2.tenantId = q.tenantId && decide (Admits lib.isNone q.filters hit.2.metadata) &&
    decide (q.minimumScore ≤ clamp hit.1)

theorem filterMap_recordAt (records : List (FaissRecord V)) :
    ((List.range records.length).map Int.ofNat).filterMap (recordAt records) = records := by
  have hat : recordAt records ∘ Int.ofNat = fun i => records[i]? := by
    funext i
    simp [recordAt]
  rw [List.filterMap_map, hat]
  induction records with
  | nil => rfl
  | cons r records ih =>
    have hat' : recordAt records ∘ Int.ofNat = fun i => records[i]? := by
      funext i
      simp [recordAt]
    rw [List.length_cons, List.range_succ_eq_map, List.filterMap_cons, List.filterMap_map]
    simpa [Function.comp_def] using ih hat'

variable {records : List (FaissRecord V)} {rows : List (ℚ × Int)}

/-- **Every record is found once.** -/
theorem hits_records (h : (rows.map Prod.snd).Perm ((List.range records.length).map Int.ofNat)) :
    ((hits records rows).map Prod.snd).Perm records := by
  have hsnd : (hits records rows).map Prod.snd = (rows.map Prod.snd).filterMap (recordAt records) := by
    unfold hits
    rw [List.map_filterMap, List.filterMap_map]
    congr 1
    funext row
    simp [Function.comp_def]
  rw [hsnd]
  conv_rhs => rw [← filterMap_recordAt records]
  exact h.filterMap _

theorem mem_hits {hit : ℚ × FaissRecord V} (h : hit ∈ hits records rows) :
    ∃ row ∈ rows, row.1 = hit.1 ∧ records[row.2.toNat]? = some hit.2 := by
  obtain ⟨row, hrow, hmap⟩ := List.mem_filterMap.1 h
  obtain ⟨r, hr, hhit⟩ := Option.map_eq_some_iff.1 hmap
  unfold recordAt at hr
  split at hr
  · cases hr
  · rw [← hhit]
    exact ⟨row, hrow, rfl, hr⟩

theorem hits_descending (h : rows.Pairwise fun a b => b.1 ≤ a.1) :
    (hits records rows).Pairwise fun a b => b.1 ≤ a.1 := by
  refine List.pairwise_filterMap.2 (h.imp fun {a b} hab c hc d hd => ?_)
  obtain ⟨r, -, rfl⟩ := Option.map_eq_some_iff.1 hc
  obtain ⟨r', -, rfl⟩ := Option.map_eq_some_iff.1 hd
  exact hab

/-- The document that is returned for a record. -/
def returned (hit : ℚ × FaissRecord V) : RetrievedDocument V := fromPayload hit.2 (clamp hit.1)

variable [DecidableEq V]

/-- The loop takes the first that match. -/
theorem collect_eq {q : RetrievalQuery V} {results : List (RetrievedDocument V)}
    (hrows : ∀ row ∈ rows, row.2 < 0 ∨ ∃ r, records[row.2.toNat]? = some r)
    (hlimit : results.length < q.limit) :
    collect lib q records results rows = .ok (results ++
      (((hits records rows).filter (Matching lib q)).take (q.limit - results.length)).map
        returned) := by
  induction rows generalizing results with
  | nil => simp [collect, hits]
  | cons row rows ih =>
    have hrest := fun (results : List (RetrievedDocument V)) hlt =>
      @ih results (fun row hrow => hrows row (List.mem_cons_of_mem _ hrow)) hlt
    obtain ⟨score, index⟩ := row
    rw [collect]
    by_cases hneg : index < 0
    · have hhits : hits records ((score, index) :: rows) = hits records rows := by
        simp [hits, recordAt, hneg]
      rw [if_pos hneg, hhits]
      exact hrest results hlimit
    rw [if_neg hneg]
    obtain ⟨r, hr⟩ := (hrows (score, index) List.mem_cons_self).resolve_left hneg
    have hhits : hits records ((score, index) :: rows) = (score, r) :: hits records rows := by
      simp [hits, recordAt, hneg, hr]
    rw [hr, hhits, List.filter_cons]
    dsimp only
    by_cases htenant : r.tenantId = q.tenantId
    case neg =>
      have hno : Matching lib q (score, r) = false := by simp [Matching, htenant]
      rw [if_pos htenant, hno]
      exact hrest results hlimit
    by_cases hfilters : Admits lib.isNone q.filters r.metadata
    case neg =>
      have hno : Matching lib q (score, r) = false := by simp [Matching, hfilters]
      rw [if_neg (not_not.2 htenant), if_pos hfilters, hno]
      exact hrest results hlimit
    rw [if_neg (not_not.2 htenant), if_neg (not_not.2 hfilters)]
    by_cases hscore : q.minimumScore ≤ clamp score
    case neg =>
      have hno : Matching lib q (score, r) = false := by simp [Matching, hscore]
      rw [if_neg hscore, hno, if_neg (by omega)]
      exact hrest results hlimit
    have hyes : Matching lib q (score, r) = true := by simp [Matching, htenant, hfilters, hscore]
    obtain ⟨k, hk⟩ : ∃ k, q.limit - results.length = k + 1 := ⟨q.limit - results.length - 1, by omega⟩
    rw [if_pos hscore, hyes, if_pos rfl, hk, List.take_succ_cons, List.map_cons]
    split_ifs with hfull
    · have hzero : k = 0 := by
        rw [List.length_append, List.length_singleton] at hfull
        omega
      rw [hzero]
      rfl
    · rw [hrest _ (by omega)]
      have hk' : q.limit - (results ++ [fromPayload r (clamp score)]).length = k := by
        rw [List.length_append, List.length_singleton]
        omega
      rw [hk', List.append_assoc]
      rfl

/-- **Retrieval is complete and isolated**: the records are searched in descending order of their
    own scores, and the first that match are returned. -/
theorem retrieve_complete {product : List ℚ → List ℚ → ℚ} (hc : Complete lib product)
    (h : Steps (stepWith cfg) Running {} s) {q : RetrievalQuery V} {vector : List ℚ}
    {more : List (List ℚ)} (hmode : q.mode = .vector) (hlimit : 1 ≤ q.limit)
    (hembed : cfg.embed [q.text] = .ok (vector :: more))
    (hdim : cfg.validateDimensions (vector :: more) = .ok ()) :
    ∃ found : List (ℚ × FaissRecord V),
      found = hits s.records (lib.search s.index (cfg.normalized vector) s.index.length) ∧
      (found.map Prod.snd).Perm s.records ∧ found.Pairwise (fun a b => b.1 ≤ a.1) ∧
      (∀ hit ∈ found, hit.1 = product (cfg.normalized vector) (cfg.normalized hit.2.vector)) ∧
      retrieve cfg lib q s =
        .ok (((found.filter (Matching lib q)).take q.limit).map returned) := by
  have hindex := index_eq h
  have hlen : s.index.length = s.records.length := by rw [hindex, rebuild, List.length_map]
  have hall := hc.all s.index (cfg.normalized vector)
  have hrecords : ((hits s.records (lib.search s.index (cfg.normalized vector)
      s.index.length)).map Prod.snd).Perm s.records := hits_records (by rw [← hlen]; exact hall)
  refine ⟨_, rfl, hrecords, hits_descending (hc.descending _ _), ?_, ?_⟩
  · intro hit hhit
    obtain ⟨row, hrow, hscore, hr⟩ := mem_hits hhit
    rw [← hscore]
    refine hc.own _ _ row hrow _ ?_
    rw [hindex, rebuild, List.getElem?_map, hr]
    rfl
  · have hrows : ∀ row ∈ lib.search s.index (cfg.normalized vector) s.index.length,
        row.2 < 0 ∨ ∃ r, s.records[row.2.toNat]? = some r := by
      intro row hrow
      obtain ⟨i, hi, hrow⟩ := List.mem_map.1 (hall.subset (List.mem_map_of_mem hrow))
      rw [List.mem_range, hlen] at hi
      refine .inr ⟨s.records[i], ?_⟩
      rw [← hrow]
      exact List.getElem?_eq_getElem hi
    unfold retrieve
    rw [if_neg (not_not.2 hmode)]
    refine bind_eq_ok.2 ⟨_, hembed, bind_eq_ok.2 ⟨(), hdim, ?_⟩⟩
    dsimp only
    rw [← hlen]
    split_ifs with hempty
    · have hnone : hits s.records (lib.search s.index (cfg.normalized vector) s.index.length) = [] := by
        refine List.eq_nil_of_length_eq_zero ?_
        rw [← List.length_map Prod.snd, hrecords.length_eq, ← hlen, hempty]
      rw [hnone]
      simp
    · rw [collect_eq hrows (by rw [List.length_nil]; omega)]
      rfl

open Desk

namespace Desk

/-- The inner product. -/
def product (v w : List ℚ) : ℚ := (List.zipWith (· * ·) v w).sum

/-- A search that looks at every row. -/
def exhaustive : FaissLib String where
  search index vector count :=
    ((index.zipIdx.map fun x => (product vector x.1, (x.2 : Int))).mergeSort
      fun a b => decide (b.1 ≤ a.1)).take count
  isNone _ := false

theorem exhaustive_complete : Complete exhaustive product := by
  have hsearch : ∀ index vector, exhaustive.search index vector index.length =
      (index.zipIdx.map fun x => (product vector x.1, (x.2 : Int))).mergeSort
        fun a b => decide (b.1 ≤ a.1) := by
    intro index vector
    refine List.take_of_length_le ?_
    rw [List.length_mergeSort, List.length_map, List.length_zipIdx]
  constructor
  · intro index vector
    rw [hsearch]
    refine ((List.mergeSort_perm _ _).map _).trans (List.Perm.of_eq ?_)
    rw [List.map_map]
    apply List.ext_getElem
    · simp
    · intro i h₁ h₂
      simp
  · intro index vector
    rw [hsearch]
    have htrans : ∀ a b c : ℚ × Int, decide (b.1 ≤ a.1) = true → decide (c.1 ≤ b.1) = true →
        decide (c.1 ≤ a.1) = true := by
      intro a b c hab hbc
      simp only [decide_eq_true_eq] at hab hbc ⊢
      exact hbc.trans hab
    have htotal : ∀ a b : ℚ × Int, (decide (b.1 ≤ a.1) || decide (a.1 ≤ b.1)) = true := by
      intro a b
      simpa using le_total b.1 a.1
    exact (List.pairwise_mergeSort htrans htotal _).imp fun {a b} hab => by simpa using hab
  · intro index vector row hrow x hx
    rw [hsearch, List.mem_mergeSort] at hrow
    obtain ⟨⟨y, i⟩, hy, rfl⟩ := List.mem_map.1 hrow
    have hi := List.mk_mem_zipIdx_iff_getElem?.1 hy
    rw [Int.toNat_natCast, hi] at hx
    cases hx
    rfl

/-- What is asked of the desk. -/
def question : RetrievalQuery String where
  text := "a"
  tenantId := "default"
  mode := .vector

end Desk

/-- A document that is found. -/
theorem retrieve_complete_desk : ∃ s found, Steps (stepWith desk) Running {} s ∧
    s.records.length = 1 ∧
    found = hits s.records (exhaustive.search s.index (desk.normalized [1, 0]) s.index.length) ∧
    (found.map Prod.snd).Perm s.records ∧ found.Pairwise (fun a b => b.1 ≤ a.1) ∧
    (∀ hit ∈ found, hit.1 = product (desk.normalized [1, 0]) (desk.normalized hit.2.vector)) ∧
    retrieve desk exhaustive question s =
      .ok (((found.filter (Matching exhaustive question)).take 10).map returned) := by
  obtain ⟨s, hs, h⟩ := Option.map_eq_some_iff.1 (show
    ((play (stepWith desk) {} [(desk.embed, .ingest 0 [document "a"])]).map
      fun s => s.records.length) = some 1 by decide +kernel)
  have hreach : Steps (stepWith desk) Running {} s :=
    steps_of_play (fun a ha s => by
      rw [List.mem_singleton.1 ha]
      simp [Running]) hs
  obtain ⟨found, hfound⟩ := retrieve_complete (q := question) exhaustive_complete hreach rfl
    (by decide) rfl rfl
  exact ⟨s, found, hreach, h, hfound⟩

end FaissRetriever

end TracciaRuntime
