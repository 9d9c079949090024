/-
  Re-ingestion, in memory and in the pgvector table.

  Both stores look for what a batch replaces through the chunks of the batch.  A version without
  chunks therefore replaces nothing, and in memory, where what is replaced is removed by the ids
  of its chunks, chunks of other tenants can go with it.
-/
import TracciaRuntime.Retrieval.Memory
import TracciaRuntime.Retrieval.VectorStores
import TracciaRuntime.Retrieval.Versions

namespace TracciaRuntime

open Py Versions

variable {V : Type}

/-- A call that changes what a retriever stores. -/
inductive IndexCall (V : Type) where
  | ingest (documents : List (SourceDocument V))
  | delete (tenantId documentId : String)

/-! ## In memory -/

namespace InMemoryRetriever

variable [DecidableEq V] (cfg : RetrieverConfig V)

/-- The documents of a tenant. -/
abbrev Owner (V : Type) := Option String × Option (MetaValue V)

/-- The tenant and the document of a version. -/
def ownerOf (d : SourceDocument V) : Owner V := (some d.id, tenantOf cfg d.metadata)

/-- A retriever and the last version of each document ingested and not deleted since. -/
structure History (V : Type) where
  retriever : InMemoryRetriever V := {}
  current : Owner V → Option (SourceDocument V) := fun _ => none

/-- A call; one that raises ingests nothing. -/
def History.step (h : History V) : IndexCall V → History V
  | .ingest documents =>
    match h.retriever.ingest cfg documents with
    | .ok (r, _) => ⟨r, bring (ownerOf cfg) h.current documents⟩
    | .error _ => h
  | .delete tenantId documentId =>
    ⟨(h.retriever.delete cfg tenantId documentId).1,
      Function.update h.current (some documentId, some (.text tenantId)) none⟩

/-- The chunks of each document are those of its last version, and no tenant has a chunk id
    twice. -/
structure History.Lawful (h : History V) : Prop where
  exact : Exact (owner cfg) cfg.chunker.chunk h.retriever.documents h.current
  nodup : ∀ tenant, ((h.retriever.documents.filter fun x =>
    tenantOf cfg x.metadata = tenant).map (·.id)).Nodup

/-- What re-ingestion asks of a call. -/
def History.Tame (h : History V) : IndexCall V → Prop
  | .ingest documents => (h.retriever.ingest cfg documents).isOk = true →
    LastOnly (ownerOf cfg) cfg.chunker.chunk documents ∧
      ∀ x ∈ h.retriever.documents, (∃ d ∈ documents, ownerOf cfg d = owner cfg x) ↔
        ∃ y ∈ h.retriever.documents, y.id = x.id ∧
          ∃ d ∈ documents, cfg.chunker.chunk d ≠ [] ∧ ownerOf cfg d = owner cfg y
  | .delete tenantId documentId => ∀ x ∈ h.retriever.documents, ∀ y ∈ h.retriever.documents,
    x.id = y.id → owner cfg x = (some documentId, some (.text tenantId)) →
      owner cfg y = (some documentId, some (.text tenantId))

variable {cfg}

omit [DecidableEq V] in
theorem owner_of_chunk {d : SourceDocument V} :
    ∀ x ∈ cfg.chunker.chunk d, owner cfg x = ownerOf cfg d := by
  intro x hx
  have hc := cfg.chunker.mem_chunk hx
  rw [owner, ownerOf, hc.documentId, hc.metadata]

/-- If the chunks are those of the last versions, then a tenant has no chunk id twice. -/
theorem nodup_of_exact {h : History V}
    (hexact : Exact (owner cfg) cfg.chunker.chunk h.retriever.documents h.current)
    (tenant : Option (MetaValue V)) : ((h.retriever.documents.filter fun x =>
      tenantOf cfg x.metadata = tenant).map (·.id)).Nodup := by
  have hchunk : ∀ x ∈ h.retriever.documents, ∃ d, TextChunker.ChunkOf d x := by
    intro x hx
    have hmem : x ∈ h.retriever.documents.filter fun y => owner cfg y = owner cfg x := by
      simp [hx]
    rw [hexact] at hmem
    cases hc : h.current (owner cfg x) with
    | none => simp [hc] at hmem
    | some d => exact ⟨d, cfg.chunker.mem_chunk (by simpa [hc] using hmem)⟩
  refine hexact.nodup cfg.chunker.nodup_chunk_ids _ fun x hx y hy htx hty hid => ?_
  obtain ⟨d, hd⟩ := hchunk x hx
  obtain ⟨d', hd'⟩ := hchunk y hy
  obtain ⟨i, hi⟩ := hd.id
  obtain ⟨j, hj⟩ := hd'.id
  have heq : d.id = d'.id := (chunkId_inj (hi.symm.trans (hid.trans hj))).1
  simp only [decide_eq_true_eq] at htx hty
  rw [owner, owner, hd.documentId, hd'.documentId, heq, htx, hty]

theorem lawful_iff {h : History V} : h.Lawful cfg ↔
    Exact (owner cfg) cfg.chunker.chunk h.retriever.documents h.current :=
  ⟨fun hl => hl.exact, fun he => ⟨he, nodup_of_exact he⟩⟩

/-- A batch that does not raise drops the items with stale ids and adds its chunks. -/
theorem ingest_documents {r r' : InMemoryRetriever V} {documents : List (SourceDocument V)}
    {n : Nat} (h : r.ingest cfg documents = .ok (r', n)) :
    r'.documents = (r.documents.filter fun x =>
        x.id ∉ staleIds cfg r.documents (documents.flatMap cfg.chunker.chunk)) ++
      documents.flatMap cfg.chunker.chunk := by
  simp only [ingest] at h
  split_ifs at h with hchunks
  · cases h
    simp [hchunks, staleIds]
  · obtain ⟨vectors, -, h⟩ := bind_eq_ok.1 h
    split_ifs at h
    cases h
    rfl

theorem mem_staleIds_iff {documents : List (RetrievedDocument V)} {new : List (SourceDocument V)}
    {id : String} : id ∈ staleIds cfg documents (new.flatMap cfg.chunker.chunk) ↔
      ∃ y ∈ documents, y.id = id ∧ ∃ d ∈ new, cfg.chunker.chunk d ≠ [] ∧
        ownerOf cfg d = owner cfg y := by
  have howners : ∀ o, o ∈ (new.flatMap cfg.chunker.chunk).map (owner cfg) ↔
      ∃ d ∈ new, cfg.chunker.chunk d ≠ [] ∧ ownerOf cfg d = o := by
    intro o
    constructor
    · intro ho
      obtain ⟨c, hc, rfl⟩ := List.mem_map.1 ho
      obtain ⟨d, hd, hc⟩ := List.mem_flatMap.1 hc
      exact ⟨d, hd, List.ne_nil_of_mem hc, (owner_of_chunk c hc).symm⟩
    · rintro ⟨d, hd, hne, rfl⟩
      obtain ⟨c, hc⟩ := List.exists_mem_of_ne_nil _ hne
      exact List.mem_map.2 ⟨c, List.mem_flatMap.2 ⟨d, hd, hc⟩, owner_of_chunk c hc⟩
  simp only [staleIds, List.mem_map, List.mem_filter, decide_eq_true_eq]
  constructor
  · rintro ⟨y, ⟨hy, ho⟩, rfl⟩
    exact ⟨y, hy, rfl, (howners _).1 (List.mem_map.2 ho)⟩
  · rintro ⟨y, hy, rfl, ho⟩
    exact ⟨y, ⟨hy, List.mem_map.1 ((howners _).2 ho)⟩, rfl⟩

theorem mem_selectedIds {tenantId documentId id : String}
    {documents : List (RetrievedDocument V)} :
    id ∈ selectedIds cfg tenantId documentId documents ↔ ∃ y ∈ documents, y.id = id ∧
      owner cfg y = (some documentId, some (.text tenantId)) := by
  simp only [selectedIds, List.mem_dedup, List.mem_map, List.mem_filter, selects,
    Bool.and_eq_true, decide_eq_true_eq, owner, Prod.mk.injEq]
  constructor
  · rintro ⟨y, ⟨hy, ho⟩, rfl⟩
    exact ⟨y, hy, rfl, ho⟩
  · rintro ⟨y, hy, rfl, ho⟩
    exact ⟨y, ⟨hy, ho⟩, rfl⟩

/-- **One call.** -/
theorem lawful_step_iff {h : History V} (hl : h.Lawful cfg) (c : IndexCall V) :
    (h.step cfg c).Lawful cfg ↔ h.Tame cfg c := by
  rw [lawful_iff]
  cases c with
  | ingest documents =>
    simp only [History.step, History.Tame]
    cases hr : h.retriever.ingest cfg documents with
    | error e => simpa [Except.isOk, Except.toBool] using hl.exact
    | ok result =>
      obtain ⟨r', n⟩ := result
      rw [ingest_documents hr, exact_bring_iff (fun _ => owner_of_chunk) hl.exact]
      simp only [Except.isOk, Except.toBool, true_implies, decide_eq_true_eq, mem_staleIds_iff]
      refine and_congr_right fun _ => forall₂_congr fun x _ => ?_
      have hno : (∀ d ∈ documents, ownerOf cfg d ≠ owner cfg x) ↔
          ¬ ∃ d ∈ documents, ownerOf cfg d = owner cfg x := by push Not; rfl
      rw [hno, not_iff_not]
      exact Iff.comm
  | delete tenantId documentId =>
    simp only [History.step, History.Tame, delete]
    rw [exact_delete_iff hl.exact]
    simp only [decide_eq_true_eq, mem_selectedIds]
    constructor
    · intro h x hx y hy hid hox
      by_contra hoy
      exact (h y hy).2 hoy ⟨x, hx, hid, hox⟩
    · intro h x hx
      constructor
      · exact fun hno hox => hno ⟨x, hx, rfl, hox⟩
      · rintro hox ⟨y, hy, hid, hoy⟩
        exact hox (h y hy x hx hid hoy)

end InMemoryRetriever

/-! ## In the pgvector table -/

namespace PgVectorRetriever

variable (cfg : VectorStoreConfig V)

/-- The tenant and the document of a version. -/
def ownerOf (d : SourceDocument V) : String × Option String :=
  (tenantText cfg.str d.metadata, some d.id)

/-- A row as the tenant and the chunk it stands for. -/
def item (row : PgRow V) : String × RetrievedDocument V := (row.tenantId, row.chunk)

def owner (x : String × RetrievedDocument V) : String × Option String := (x.1, x.2.documentId)

/-- The chunks of a version. -/
def parts (d : SourceDocument V) : List (String × RetrievedDocument V) :=
  (cfg.chunker.chunk d).map fun c => (tenantText cfg.str d.metadata, c)

/-- The table and the last version of each document ingested and not deleted since. -/
structure History (V : Type) where
  rows : List (PgRow V) := []
  current : String × Option String → Option (SourceDocument V) := fun _ => none

/-- A call; one that raises ingests nothing. -/
def History.step (h : History V) : IndexCall V → History V
  | .ingest documents =>
    match ingest cfg documents h.rows with
    | .ok (rows, _) => ⟨rows, bring (ownerOf cfg) h.current documents⟩
    | .error _ => h
  | .delete tenantId documentId =>
    ⟨(delete tenantId documentId h.rows).1,
      Function.update h.current (tenantId, some documentId) none⟩

/-- The chunks of each document are those of its last version, and no tenant has a chunk id
    twice. -/
structure History.Lawful (h : History V) : Prop where
  exact : Exact owner (parts cfg) (h.rows.map item) h.current
  nodup : ∀ tenant, ((h.rows.filter fun r => r.tenantId = tenant).map (·.chunkId)).Nodup

/-- The documents can be embedded, and each of their chunks can be written. -/
def Writable (documents : List (SourceDocument V)) : Prop :=
  ∃ chunks vectors new, cfg.chunksAndVectors documents = .ok (chunks, vectors) ∧
    cfg.validateDimensions vectors = .ok () ∧
    (chunks.zip vectors).mapM (fun x => row cfg x.1 x.2) = .ok new

/-- A call does what it should: it returns if its documents can be written, and the table is
    right. -/
def History.Good (h : History V) (c : IndexCall V) : Prop :=
  (∀ documents, c = .ingest documents → Writable cfg documents →
    (ingest cfg documents h.rows).isOk = true) ∧ (h.step cfg c).Lawful cfg

/-- What re-ingestion asks of a call. -/
def History.Tame (h : History V) : IndexCall V → Prop
  | .ingest documents => Writable cfg documents →
    (∀ d ∈ documents, cfg.chunker.chunk d ≠ [] → d.id ≠ "") ∧
      LastOnly (ownerOf cfg) cfg.chunker.chunk documents ∧
      ∀ r ∈ h.rows, (∃ d ∈ documents, ownerOf cfg d = (r.tenantId, some r.documentId)) →
        ∃ d ∈ documents, cfg.chunker.chunk d ≠ [] ∧
          ownerOf cfg d = (r.tenantId, some r.documentId)
  | .delete _ _ => True

variable {cfg}

theorem owner_of_part {d : SourceDocument V} : ∀ x ∈ parts cfg d, owner x = ownerOf cfg d := by
  intro x hx
  obtain ⟨c, hc, rfl⟩ := List.mem_map.1 hx
  rw [owner, ownerOf, (cfg.chunker.mem_chunk hc).documentId]

theorem parts_eq_nil {d : SourceDocument V} : parts cfg d = [] ↔ cfg.chunker.chunk d = [] :=
  List.map_eq_nil_iff

/-- The row of a chunk of a document that has an id. -/
theorem item_of_row {d : SourceDocument V} {c : RetrievedDocument V} {vector : List ℚ}
    {r : PgRow V} (h : row cfg c vector = .ok r) (hc : c ∈ cfg.chunker.chunk d) (hd : d.id ≠ "") :
    item r = (tenantText cfg.str d.metadata, c) := by
  obtain ⟨-, -, h⟩ := bind_eq_ok.1 h
  cases h
  obtain ⟨text, index, rfl⟩ := cfg.chunker.eq_of_mem_chunk hc
  simp [item, PgRow.chunk, TextChunker.chunkOf, RetrievedDocument.documentOrId, hd]

/-- The rows of a batch stand for the chunks of its versions. -/
theorem items_of_rows {documents : List (SourceDocument V)} {chunks : List (RetrievedDocument V)}
    {vectors : List (List ℚ)} {new : List (PgRow V)}
    (hchunks : cfg.chunksAndVectors documents = .ok (chunks, vectors))
    (hnew : (chunks.zip vectors).mapM (fun x => row cfg x.1 x.2) = .ok new)
    (hid : ∀ d ∈ documents, cfg.chunker.chunk d ≠ [] → d.id ≠ "") :
    new.map item = documents.flatMap (parts cfg) := by
  obtain ⟨rfl, hlen⟩ := cfg.chunksAndVectors_eq_ok hchunks
  have hitem : ∀ x ∈ (documents.flatMap cfg.chunker.chunk).zip vectors, ∀ r,
      row cfg x.1 x.2 = .ok r → item r = (tenantText cfg.str x.1.metadata, x.1) := by
    intro x hx r hr
    obtain ⟨d, hd, hc⟩ := List.mem_flatMap.1 (List.of_mem_zip hx).1
    rw [(cfg.chunker.mem_chunk hc).metadata]
    exact item_of_row hr hc (hid d hd (List.ne_nil_of_mem hc))
  calc new.map item
      = ((documents.flatMap cfg.chunker.chunk).zip vectors).map fun x =>
          (tenantText cfg.str x.1.metadata, x.1) := map_of_mapM hnew hitem
    _ = (documents.flatMap cfg.chunker.chunk).map fun c => (tenantText cfg.str c.metadata, c) := by
        conv_rhs => rw [← List.map_fst_zip hlen.ge, List.map_map]
        rfl
    _ = documents.flatMap (parts cfg) := by
        rw [List.map_flatMap]
        refine List.flatMap_congr fun d _ => List.map_congr_left fun c hc => ?_
        rw [(cfg.chunker.mem_chunk hc).metadata]

/-! ### Writing rows -/

/-- The primary key. -/
def key (r : PgRow V) : String × String := (r.tenantId, r.chunkId)

theorem insert_all {rows new rows' : List (PgRow V)} (h : new.foldlM insert rows = .ok rows') :
    rows' = rows ++ new := by
  induction new generalizing rows with
  | nil => cases h; simp
  | cons r new ih =>
    rw [List.foldlM_cons] at h
    obtain ⟨rows₁, h₁, h⟩ := bind_eq_ok.1 h
    rw [insert] at h₁
    split_ifs at h₁
    cases h₁
    simpa using ih h

theorem insert_all_ok {rows new : List (PgRow V)} (h : ((rows ++ new).map key).Nodup) :
    new.foldlM insert rows = .ok (rows ++ new) := by
  induction new generalizing rows with
  | nil => simp; rfl
  | cons r new ih =>
    have hfree : ¬ ∃ r' ∈ rows, r'.tenantId = r.tenantId ∧ r'.chunkId = r.chunkId := by
      rintro ⟨r', hr', ht, hc⟩
      rw [List.map_append, List.map_cons] at h
      exact (List.nodup_append.1 h).2.2 (key r') (List.mem_map_of_mem hr') (key r)
        List.mem_cons_self (Prod.ext ht hc)
    rw [List.foldlM_cons, insert, if_neg hfree]
    have hrest : new.foldlM insert (rows ++ [r]) = .ok (rows ++ [r] ++ new) :=
      ih (by simpa using h)
    refine hrest.trans ?_
    rw [List.append_assoc, List.singleton_append]

theorem ingest_eq {documents : List (SourceDocument V)} {chunks : List (RetrievedDocument V)}
    {vectors : List (List ℚ)} {new rows : List (PgRow V)}
    (hchunks : cfg.chunksAndVectors documents = .ok (chunks, vectors))
    (hvalid : cfg.validateDimensions vectors = .ok ())
    (hnew : (chunks.zip vectors).mapM (fun x => row cfg x.1 x.2) = .ok new) :
    ingest cfg documents rows = (new.foldlM insert
      (kept cfg (documents.flatMap cfg.chunker.chunk) rows)).map fun rows =>
        (rows, chunks.length) := by
  obtain ⟨rfl, -⟩ := cfg.chunksAndVectors_eq_ok hchunks
  simp only [ingest, hchunks, hvalid, hnew, bind, Except.bind]
  cases new.foldlM insert _ <;> rfl

theorem writable_of_ingest {documents : List (SourceDocument V)} {rows : List (PgRow V)}
    {result : List (PgRow V) × Nat} (h : ingest cfg documents rows = .ok result) :
    Writable cfg documents := by
  obtain ⟨⟨chunks, vectors⟩, hchunks, h⟩ := bind_eq_ok.1 h
  obtain ⟨⟨⟩, hvalid, h⟩ := bind_eq_ok.1 h
  obtain ⟨new, hnew, -⟩ := bind_eq_ok.1 h
  exact ⟨chunks, vectors, new, hchunks, hvalid, hnew⟩

theorem mem_owners {documents : List (SourceDocument V)} {o : String × Option String} :
    o ∈ (documents.flatMap cfg.chunker.chunk).map
        (fun c => (tenantText cfg.str c.metadata, c.documentId)) ↔
      ∃ d ∈ documents, cfg.chunker.chunk d ≠ [] ∧ ownerOf cfg d = o := by
  have howner : ∀ d, ∀ c ∈ cfg.chunker.chunk d,
      (tenantText cfg.str c.metadata, c.documentId) = ownerOf cfg d := by
    intro d c hc
    rw [ownerOf, (cfg.chunker.mem_chunk hc).documentId, (cfg.chunker.mem_chunk hc).metadata]
  constructor
  · intro ho
    obtain ⟨c, hc, rfl⟩ := List.mem_map.1 ho
    obtain ⟨d, hd, hc⟩ := List.mem_flatMap.1 hc
    exact ⟨d, hd, List.ne_nil_of_mem hc, (howner d c hc).symm⟩
  · rintro ⟨d, hd, hne, rfl⟩
    obtain ⟨c, hc⟩ := List.exists_mem_of_ne_nil _ hne
    exact List.mem_map.2 ⟨c, List.mem_flatMap.2 ⟨d, hd, hc⟩, howner d c hc⟩

/-- What the items of an exact table are. -/
theorem part_of_exact {rows : List (PgRow V)}
    {current : String × Option String → Option (SourceDocument V)}
    (h : Exact owner (parts cfg) (rows.map item) current) {r : PgRow V} (hr : r ∈ rows) :
    ∃ d, TextChunker.ChunkOf d r.chunk := by
  have hmem : item r ∈ (rows.map item).filter fun x => owner x = owner (item r) := by
    simpa using List.mem_map_of_mem hr
  rw [h] at hmem
  cases hc : current (owner (item r)) with
  | none => simp [hc] at hmem
  | some d =>
    rw [hc] at hmem
    obtain ⟨c, hc, heq⟩ := List.mem_map.1 (show item r ∈ parts cfg d from hmem)
    have hchunk : c = r.chunk := congrArg Prod.snd heq
    exact ⟨d, hchunk ▸ cfg.chunker.mem_chunk hc⟩

/-- If the chunks are those of the last versions, then their keys are different. -/
theorem nodup_of_exact {rows : List (PgRow V)}
    {current : String × Option String → Option (SourceDocument V)}
    (h : Exact owner (parts cfg) (rows.map item) current) : (rows.map key).Nodup := by
  have hname : ∀ d, ((parts cfg d).map fun x => (x.1, x.2.id)).Nodup := by
    intro d
    rw [parts, List.map_map, show ((fun x : String × RetrievedDocument V => (x.1, x.2.id)) ∘
      fun c => (tenantText cfg.str d.metadata, c)) = Prod.mk (tenantText cfg.str d.metadata) ∘
        (·.id) from rfl, ← List.map_map]
    exact (cfg.chunker.nodup_chunk_ids d).map fun i j hij => (Prod.mk.inj hij).2
  have hnodup := h.nodup hname (fun _ => true) ?_
  · rw [List.filter_eq_self.2 fun _ _ => rfl, List.map_map] at hnodup
    exact hnodup
  · intro x hx y hy _ _ heq
    obtain ⟨r, hr, rfl⟩ := List.mem_map.1 hx
    obtain ⟨r', hr', rfl⟩ := List.mem_map.1 hy
    obtain ⟨d, hd⟩ := part_of_exact h hr
    obtain ⟨d', hd'⟩ := part_of_exact h hr'
    obtain ⟨i, hi⟩ := hd.id
    obtain ⟨j, hj⟩ := hd'.id
    obtain ⟨htenant, hid⟩ := Prod.mk.inj heq
    have hdd : d.id = d'.id := (chunkId_inj (hi.symm.trans (hid.trans hj))).1
    exact Prod.ext htenant (hd.documentId.trans (by rw [hdd, ← hd'.documentId]; rfl))

theorem lawful_iff {h : History V} :
    h.Lawful cfg ↔ Exact owner (parts cfg) (h.rows.map item) h.current := by
  refine ⟨fun hl => hl.exact, fun he => ⟨he, fun tenant => ?_⟩⟩
  have hkeys := ((nodup_of_exact he).sublist
    ((List.filter_sublist (p := fun r => r.tenantId = tenant)).map key))
  refine List.pairwise_map.2 ((List.pairwise_map.1 hkeys).imp_of_mem fun hr hr' hne heq => ?_)
  have ht := of_decide_eq_true (List.mem_filter.1 hr).2
  have ht' := of_decide_eq_true (List.mem_filter.1 hr').2
  exact hne (Prod.ext (ht.trans ht'.symm) heq)

/-- A table with the chunks of a document without an id is wrong. -/
theorem id_ne_of_exact {documents : List (SourceDocument V)} {chunks : List (RetrievedDocument V)}
    {vectors : List (List ℚ)} {old new : List (PgRow V)}
    {current : String × Option String → Option (SourceDocument V)}
    (hchunks : cfg.chunksAndVectors documents = .ok (chunks, vectors))
    (hnew : (chunks.zip vectors).mapM (fun x => row cfg x.1 x.2) = .ok new)
    (h : Exact owner (parts cfg) ((old ++ new).map item) current) :
    ∀ d ∈ documents, cfg.chunker.chunk d ≠ [] → d.id ≠ "" := by
  intro d hd hne hid
  obtain ⟨rfl, hlen⟩ := cfg.chunksAndVectors_eq_ok hchunks
  obtain ⟨c, hc⟩ := List.exists_mem_of_ne_nil _ hne
  obtain ⟨text, index, rfl⟩ := cfg.chunker.eq_of_mem_chunk hc
  -- the row of the chunk is stored under the id of the chunk
  have hzip : TextChunker.chunkOf d text index ∈
      ((documents.flatMap cfg.chunker.chunk).zip vectors).map Prod.fst := by
    rw [List.map_fst_zip hlen.ge]
    exact List.mem_flatMap.2 ⟨d, hd, hc⟩
  obtain ⟨x, hx, hfst⟩ := List.mem_map.1 hzip
  obtain ⟨r, hr, hrow⟩ := exists_of_mem_left (mapM_eq_ok.1 hnew) hx
  obtain ⟨d', hd'⟩ := part_of_exact h (List.mem_append_right old hr)
  obtain ⟨-, -, hrow⟩ := bind_eq_ok.1 hrow
  rw [hfst] at hrow
  cases hrow
  -- which is not the id of a chunk of a document stored there
  have hdoc : d'.id = d.id ++ ":" ++ toString index := by
    have := hd'.documentId
    simp only [PgRow.chunk, RetrievedDocument.documentOrId, TextChunker.chunkOf, hid, if_true,
      Option.some.injEq] at this
    rw [← this, hid]
  obtain ⟨j, hj⟩ := hd'.id
  have hempty : d.id = d'.id := (chunkId_inj hj).1
  rw [hdoc] at hempty
  have := congrArg (fun s => s.toList.length) hempty
  simp [String.toList_append] at this

theorem kept_items (documents : List (SourceDocument V)) (rows : List (PgRow V)) :
    (kept cfg (documents.flatMap cfg.chunker.chunk) rows).map item =
      (rows.map item).filter fun x => owner x ∉
      (documents.flatMap cfg.chunker.chunk).map
        fun c => (tenantText cfg.str c.metadata, c.documentId) := by
  rw [List.filter_map]
  rfl

/-- The table after a batch that can be written. -/
theorem exact_ingest_iff {h : History V} (hl : h.Lawful cfg)
    {documents : List (SourceDocument V)} {chunks : List (RetrievedDocument V)}
    {vectors : List (List ℚ)} {new : List (PgRow V)}
    (hchunks : cfg.chunksAndVectors documents = .ok (chunks, vectors))
    (hnew : (chunks.zip vectors).mapM (fun x => row cfg x.1 x.2) = .ok new) :
    Exact owner (parts cfg)
        ((kept cfg (documents.flatMap cfg.chunker.chunk) h.rows ++ new).map item) (bring (ownerOf cfg) h.current documents) ↔
      (∀ d ∈ documents, cfg.chunker.chunk d ≠ [] → d.id ≠ "") ∧
        LastOnly (ownerOf cfg) cfg.chunker.chunk documents ∧
        ∀ r ∈ h.rows, (∃ d ∈ documents, ownerOf cfg d = (r.tenantId, some r.documentId)) →
          ∃ d ∈ documents, cfg.chunker.chunk d ≠ [] ∧
            ownerOf cfg d = (r.tenantId, some r.documentId) := by
  have hexact : (∀ d ∈ documents, cfg.chunker.chunk d ≠ [] → d.id ≠ "") →
      (Exact owner (parts cfg)
          ((kept cfg (documents.flatMap cfg.chunker.chunk) h.rows ++ new).map item) (bring (ownerOf cfg) h.current documents) ↔
        LastOnly (ownerOf cfg) cfg.chunker.chunk documents ∧
        ∀ r ∈ h.rows, (∃ d ∈ documents, ownerOf cfg d = (r.tenantId, some r.documentId)) →
          ∃ d ∈ documents, cfg.chunker.chunk d ≠ [] ∧
            ownerOf cfg d = (r.tenantId, some r.documentId)) := by
    intro hid
    rw [List.map_append, items_of_rows hchunks hnew hid, kept_items,
      exact_bring_iff (fun _ => owner_of_part) hl.exact]
    refine and_congr (by simp only [LastOnly, parts_eq_nil]) ?_
    rw [List.forall_mem_map]
    refine forall₂_congr fun r _ => ?_
    rw [decide_eq_true_eq, mem_owners]
    constructor
    · intro hr hnamed
      by_contra hno
      obtain ⟨d, hd, ho⟩ := hnamed
      exact hr.1 hno d hd ho
    · intro hr
      constructor
      · exact fun hno d hd ho => hno (hr ⟨d, hd, ho⟩)
      · rintro hno ⟨d, hd, -, ho⟩
        exact hno d hd ho
  constructor
  · intro h'
    have hid := id_ne_of_exact hchunks hnew h'
    exact ⟨hid, (hexact hid).1 h'⟩
  · rintro ⟨hid, h'⟩
    exact (hexact hid).2 h'

/-- **One call.** -/
theorem good_iff {h : History V} (hl : h.Lawful cfg) (c : IndexCall V) :
    h.Good cfg c ↔ h.Tame cfg c := by
  cases c with
  | ingest documents =>
    simp only [History.Good, History.Tame, IndexCall.ingest.injEq, forall_eq']
    by_cases hw : Writable cfg documents
    · obtain ⟨chunks, vectors, new, hchunks, hvalid, hnew⟩ := hw
      have hw : Writable cfg documents := ⟨chunks, vectors, new, hchunks, hvalid, hnew⟩
      have hiff := exact_ingest_iff hl hchunks hnew
      have heq : ingest cfg documents h.rows = _ := ingest_eq hchunks hvalid hnew
      simp only [hw, true_implies, lawful_iff, History.step]
      rw [← hiff, heq]
      constructor
      · rintro ⟨hok, hstep⟩
        cases hrows : new.foldlM insert
            (kept cfg (documents.flatMap cfg.chunker.chunk) h.rows) with
        | error e => rw [hrows] at hok; cases hok
        | ok rows =>
          rw [hrows] at hstep
          rw [insert_all hrows] at hstep
          exact hstep
      · intro hstep
        rw [insert_all_ok (nodup_of_exact hstep)]
        exact ⟨rfl, hstep⟩
    · have herror : ∃ e, ingest cfg documents h.rows = .error e := by
        cases hr : ingest cfg documents h.rows with
        | error e => exact ⟨e, rfl⟩
        | ok result => exact absurd (writable_of_ingest hr) hw
      obtain ⟨e, he⟩ := herror
      simpa [hw, History.step, he] using hl
  | delete tenantId documentId =>
    simp only [History.Good, History.Tame, reduceCtorEq, false_implies, implies_true, true_and,
      lawful_iff, History.step, delete, iff_true]
    have hkeep : (h.rows.filter fun r => !(decide (r.tenantId = tenantId) &&
        decide (r.documentId = documentId))).map item = (h.rows.map item).filter fun x =>
          !(decide (x.1 = tenantId) && decide (x.2.documentId = some documentId)) := by
      rw [List.filter_map]
      congr 1
      refine List.filter_congr fun r _ => ?_
      by_cases ht : r.tenantId = tenantId <;> simp [item, PgRow.chunk, ht]
    rw [hkeep, exact_delete_iff hl.exact]
    intro x _
    simp [owner, Prod.ext_iff, imp_iff_not_or]

end PgVectorRetriever

/-! ## Histories -/

/-- After each call of the history the chunks stored in memory are those of the last versions. -/
def InMemoryRetriever.Replaces [DecidableEq V] (cfg : RetrieverConfig V)
    (calls : List (IndexCall V)) : Prop :=
  ∀ pre c, pre ++ [c] <+: calls →
    ((pre.foldl (History.step cfg) {}).step cfg c).Lawful cfg

/-- After each call of the history the chunks stored in the table are those of the last versions,
    and no call fails whose documents can be written. -/
def PgVectorRetriever.Replaces (cfg : VectorStoreConfig V) (calls : List (IndexCall V)) : Prop :=
  ∀ pre c, pre ++ [c] <+: calls → (pre.foldl (History.step cfg) {}).Good cfg c

/-- **Re-ingestion.** The stores hold the chunks of the last versions exactly if each call of the
    history is one that they can take. -/
theorem reingestion_iff [DecidableEq V] (memory : RetrieverConfig V) (table : VectorStoreConfig V)
    (calls : List (IndexCall V)) :
    (InMemoryRetriever.Replaces memory calls ↔ ∀ pre c, pre ++ [c] <+: calls →
      (pre.foldl (InMemoryRetriever.History.step memory) {}).Tame memory c) ∧
    (PgVectorRetriever.Replaces table calls ↔ ∀ pre c, pre ++ [c] <+: calls →
      (pre.foldl (PgVectorRetriever.History.step table) {}).Tame table c) := by
  constructor
  · refine history_iff (InMemoryRetriever.History.Lawful memory) (fun h c hl => ?_) (fun h c hl => hl) ?_ calls
    · exact InMemoryRetriever.lawful_step_iff hl c
    · exact InMemoryRetriever.lawful_iff.2 exact_nil
  · refine history_iff (PgVectorRetriever.History.Lawful table) (fun h c hl => ?_) (fun h c hg => hg.2) ?_ calls
    · exact PgVectorRetriever.good_iff hl c
    · exact PgVectorRetriever.lawful_iff.2 exact_nil

namespace Sample

/-- A table with one vector for all texts. -/
def table : VectorStoreConfig String where
  embed texts := .ok (texts.map fun _ => [1])
  dimensions := 1
  str := id
  write _ := .ok ()

/-- Any retriever in memory. -/
def memory : RetrieverConfig String where
  chunker := standardChunker
  embed texts := .ok (texts.map fun _ => [1])
  cosine _ _ := 0
  terms s := {s}
  folded := id
  isNone _ := false

/-- A text and then a blank one. -/
def blanked : List (IndexCall String) :=
  [.ingest [{ id := "d", text := "secret", source := "s" }],
    .ingest [{ id := "d", text := " ", source := "s" }]]

end Sample

/-- A blank version replaces nothing. -/
theorem reingestion_lost :
    ¬ InMemoryRetriever.Replaces Sample.memory Sample.blanked ∧
      ¬ PgVectorRetriever.Replaces Sample.table Sample.blanked := by
  constructor
  · intro h
    have hexact := (h [_] _ (List.prefix_refl _)).exact (some "d", none)
    revert hexact
    decide +kernel
  · intro h
    have hexact := (h [_] _ (List.prefix_refl _)).2.exact ("default", some "d")
    revert hexact
    decide +kernel

end TracciaRuntime
