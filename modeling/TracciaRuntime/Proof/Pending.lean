/-
  The pending sources of an `InMemoryRetriever`.

  `_ingest_pending` empties the list before it awaits the embedder, and `except Exception` does
  not see the cancellation of the task: the documents it ingests are then neither pending nor in
  the index.  What is in the index can also be removed with chunks of another tenant, since the
  chunks to remove are looked up by their ids alone.  Otherwise a document that was added is kept.
-/
import TracciaRuntime.Retrieval.Lazy
import TracciaRuntime.Proof.Reingestion

namespace TracciaRuntime

open Machine

variable {V : Type}

namespace LazyRetriever

/-- The documents that the task with `_ingest_lock` ingests. -/
def batch (s : LazyRetriever V) : List (SourceDocument V) :=
  match s.ingesting with
  | none => []
  | some (_, pending) => pending

end LazyRetriever

/-- A retriever, and the documents that were added and neither deleted nor added again since. -/
structure Watched (V : Type) where
  retriever : LazyRetriever V := {}
  owed : List (SourceDocument V) := []
  deriving DecidableEq

namespace Watched

open InMemoryRetriever (tenantOf owner ownerOf owner_of_chunk staleIds selectedIds selects)

variable [DecidableEq V] (cfg : RetrieverConfig V)

def owes (owed : List (SourceDocument V)) : LazyStep V → List (SourceDocument V)
  | .addSource document =>
    (owed.filter fun d => ownerOf cfg d ≠ ownerOf cfg document) ++ [document]
  | .delete tenantId documentId =>
    owed.filter fun d => !selects cfg tenantId documentId (some d.id) d.metadata
  | _ => owed

def step (s : Watched V) (a : LazyStep V) : Option (Watched V) :=
  (s.retriever.step cfg a).map fun retriever => ⟨retriever, owes cfg s.owed a⟩

/-- The chunks of the document are in the index. -/
def Indexed (s : LazyRetriever V) (d : SourceDocument V) : Prop :=
  ∀ c ∈ cfg.chunker.chunk d, c ∈ s.store.documents

/-- Nothing is lost. -/
def Safe (s : Watched V) : Prop :=
  ∀ d ∈ s.owed, d ∈ s.retriever.store.pending ∨ Indexed cfg s.retriever d

/-- The document is neither pending nor being ingested. -/
def Settled (s : LazyRetriever V) (d : SourceDocument V) : Prop :=
  d ∉ s.store.pending ∧ d ∉ s.batch

/-- What the sources ask of a step: a task is not cancelled while it ingests one of them that is
    neither pending again nor in the index already, and no chunk of one of them that is settled
    has the id of a chunk of another document or tenant that is removed. -/
def Mindful (s : Watched V) : LazyStep V → Prop
  | .cancelled t => ∀ batch, s.retriever.ingesting = some (t, batch) → ∀ d ∈ batch, d ∈ s.owed →
    d ∈ s.retriever.store.pending ∨ Indexed cfg s.retriever d
  | .delete tenantId documentId => ∀ d ∈ s.owed, Settled s.retriever d →
    ∀ c ∈ cfg.chunker.chunk d,
      c.id ∈ selectedIds cfg tenantId documentId s.retriever.store.documents →
        selects cfg tenantId documentId c.documentId c.metadata
  | .embedded vectors => vectors.length = (s.retriever.batch.flatMap cfg.chunker.chunk).length →
    ∀ d ∈ s.owed, Settled s.retriever d → ∀ c ∈ cfg.chunker.chunk d,
      c.id ∈ staleIds cfg s.retriever.store.documents
          (s.retriever.batch.flatMap cfg.chunker.chunk) →
        ∃ d' ∈ s.retriever.batch, ownerOf cfg d' = ownerOf cfg d
  | _ => True

variable {cfg}

/-! ## Where a source is -/

/-- A version of the document is in the list. -/
def Among (cfg : RetrieverConfig V) (d : SourceDocument V) (l : List (SourceDocument V)) : Prop :=
  ∃ d' ∈ l, ownerOf cfg d' = ownerOf cfg d

/-- The source is pending, or being ingested, or in the index, and no other version of it comes
    after. -/
inductive Held (cfg : RetrieverConfig V) (s : LazyRetriever V) (d : SourceDocument V) : Prop where
  | pending (h : d ∈ s.store.pending)
  | ingesting (h : ¬ Among cfg d s.store.pending) (hd : d ∈ s.batch)
  | indexed (h : ¬ Among cfg d s.store.pending) (hb : ¬ Among cfg d s.batch)
      (hd : Indexed cfg s d)

omit [DecidableEq V] in
theorem not_among_nil {d : SourceDocument V} : ¬ Among cfg d [] := by
  rintro ⟨d', hd', -⟩
  cases hd'

omit [DecidableEq V] in
theorem not_mem_of_not_among {d : SourceDocument V} {l : List (SourceDocument V)}
    (h : ¬ Among cfg d l) : d ∉ l := fun hd => h ⟨d, hd, rfl⟩

omit [DecidableEq V] in
theorem Among.mono {d : SourceDocument V} {l l' : List (SourceDocument V)} (h : Among cfg d l)
    (hl : ∀ x ∈ l, x ∈ l') : Among cfg d l' := by
  obtain ⟨d', hd', ho⟩ := h
  exact ⟨d', hl d' hd', ho⟩

theorem selects_chunk {tenantId documentId : String} {d : SourceDocument V}
    {c : RetrievedDocument V} (hc : c ∈ cfg.chunker.chunk d) :
    selects cfg tenantId documentId c.documentId c.metadata =
      selects cfg tenantId documentId (some d.id) d.metadata := by
  have h := cfg.chunker.mem_chunk hc
  rw [h.documentId, h.metadata]

/-! ## One step -/

variable {s : LazyRetriever V} {d : SourceDocument V}

omit [DecidableEq V] in
theorem Held.addSource (h : Held cfg s d) {document : SourceDocument V}
    (hne : ownerOf cfg d ≠ ownerOf cfg document) :
    Held cfg { s with store := s.store.addSource document } d := by
  have hnew : Among cfg d (s.store.pending ++ [document]) → Among cfg d s.store.pending := by
    rintro ⟨d', hd', ho⟩
    rcases List.mem_append.1 hd' with hd' | hd'
    · exact ⟨d', hd', ho⟩
    · rw [List.mem_singleton.1 hd'] at ho
      exact absurd ho.symm hne
  cases h with
  | pending h => exact .pending (List.mem_append_left _ h)
  | ingesting h hd => exact .ingesting (fun h' => h (hnew h')) hd
  | indexed h hb hd => exact .indexed (fun h' => h (hnew h')) hb hd

theorem Held.delete (h : Held cfg s d) {tenantId documentId : String}
    (hd : selects cfg tenantId documentId (some d.id) d.metadata = false)
    (hm : Settled s d → ∀ c ∈ cfg.chunker.chunk d,
      c.id ∈ selectedIds cfg tenantId documentId s.store.documents →
        selects cfg tenantId documentId c.documentId c.metadata) :
    Held cfg { s with store := (s.store.delete cfg tenantId documentId).1 } d := by
  have hfewer : Among cfg d (s.store.delete cfg tenantId documentId).1.pending →
      Among cfg d s.store.pending := fun h => h.mono fun x hx => (List.mem_filter.1 hx).1
  cases h with
  | pending h => exact .pending (List.mem_filter.2 ⟨h, by simp [hd]⟩)
  | ingesting h hd => exact .ingesting (fun h' => h (hfewer h')) hd
  | indexed h hb hi =>
    refine .indexed (fun h' => h (hfewer h')) hb fun c hc => ?_
    refine List.mem_filter.2 ⟨hi c hc, ?_⟩
    have hkept : c.id ∉ selectedIds cfg tenantId documentId s.store.documents := by
      intro hid
      have hsel := hm ⟨not_mem_of_not_among h, not_mem_of_not_among hb⟩ c hc hid
      rw [selects_chunk hc, hd] at hsel
      cases hsel
    simp [hkept]

omit [DecidableEq V] in
theorem Held.begin (h : Held cfg s d) (hfree : s.ingesting = none) (t : Nat) :
    Held cfg { store := { s.store with pending := [] }, ingesting := some (t, s.store.pending) }
      d := by
  cases h with
  | pending h => exact .ingesting not_among_nil h
  | ingesting h hd =>
    simp [LazyRetriever.batch, hfree] at hd
  | indexed h hb hd => exact .indexed not_among_nil h hd

omit [DecidableEq V] in
/-- Without chunks there is nothing to ingest. -/
theorem Held.blank (h : Held cfg s d) (hfree : s.ingesting = none)
    (hblank : s.store.pending.flatMap cfg.chunker.chunk = []) :
    Held cfg { s with store := { s.store with pending := [] } } d := by
  have hbatch : s.batch = [] := by simp [LazyRetriever.batch, hfree]
  cases h with
  | pending h =>
    refine .indexed not_among_nil (fun h' => not_among_nil (hbatch ▸ h')) fun c hc => ?_
    have hc' : c ∈ s.store.pending.flatMap cfg.chunker.chunk := List.mem_flatMap.2 ⟨d, h, hc⟩
    rw [hblank] at hc'
    cases hc'
  | ingesting h hd =>
    rw [hbatch] at hd
    cases hd
  | indexed h hb hd => exact .indexed not_among_nil hb hd

omit [DecidableEq V] in
theorem Held.restore (h : Held cfg s d) : Held cfg (s.restore s.batch) d := by
  cases h with
  | pending h => exact .pending (List.mem_append_right _ h)
  | ingesting h hd => exact .pending (List.mem_append_left _ hd)
  | indexed h hb hd =>
    refine .indexed ?_ ?_ hd
    · rintro ⟨d', hd', ho⟩
      rcases List.mem_append.1 hd' with hd' | hd'
      · exact hb ⟨d', hd', ho⟩
      · exact h ⟨d', hd', ho⟩
    · rintro ⟨d', hd', -⟩
      cases hd'

theorem Held.replace (h : Held cfg s d) {vectors : List (List ℚ)}
    (hm : Settled s d → ∀ c ∈ cfg.chunker.chunk d,
      c.id ∈ staleIds cfg s.store.documents (s.batch.flatMap cfg.chunker.chunk) →
        Among cfg d s.batch) :
    Held cfg { store := s.store.replace cfg (s.batch.flatMap cfg.chunker.chunk) vectors } d := by
  cases h with
  | pending h => exact .pending h
  | ingesting h hd =>
    refine .indexed h not_among_nil fun c hc => List.mem_append_right _ ?_
    exact List.mem_flatMap.2 ⟨d, hd, hc⟩
  | indexed h hb hi =>
    refine .indexed h not_among_nil fun c hc => List.mem_append_left _ ?_
    refine List.mem_filter.2 ⟨hi c hc, ?_⟩
    have hkept : c.id ∉ staleIds cfg s.store.documents (s.batch.flatMap cfg.chunker.chunk) :=
      fun hid =>
        hb (hm ⟨not_mem_of_not_among h, not_mem_of_not_among hb⟩ c hc hid)
    simpa using hkept

omit [DecidableEq V] in
theorem Held.cancelled (h : Held cfg s d)
    (hm : d ∈ s.batch → d ∈ s.store.pending ∨ Indexed cfg s d) :
    Held cfg { s with ingesting := none } d := by
  cases h with
  | pending h => exact .pending h
  | ingesting h hd =>
    rcases hm hd with hp | hi
    · exact .pending hp
    · exact .indexed h not_among_nil hi
  | indexed h hb hd => exact .indexed h not_among_nil hd

/-- What the run keeps. -/
def Inv (cfg : RetrieverConfig V) (s : Watched V) : Prop := ∀ d ∈ s.owed, Held cfg s.retriever d

/-- **One step** keeps track of the sources exactly if it is mindful of them. -/
theorem inv_step_iff {s s' : Watched V} {a : LazyStep V} (hI : Inv cfg s)
    (h : s.step cfg a = some s') : Inv cfg s' ↔ Mindful cfg s a := by
  obtain ⟨r, hr, rfl⟩ := Option.map_eq_some_iff.1 h
  cases a with
  | addSource document =>
    cases hr
    refine iff_of_true (fun d hd => ?_) trivial
    rcases List.mem_append.1 hd with hd | hd
    · obtain ⟨hd, hne⟩ := List.mem_filter.1 hd
      exact (hI d hd).addSource (by simpa using hne)
    · refine .pending (List.mem_append_right _ ?_)
      simpa using hd
  | delete tenantId documentId =>
    cases hr
    constructor
    · intro hI' d hd hset c hc hid
      by_contra hsel
      rw [selects_chunk hc] at hsel
      have hd' : d ∈ owes cfg s.owed (.delete tenantId documentId) :=
        List.mem_filter.2 ⟨hd, by simpa using hsel⟩
      cases hI' d hd' with
      | pending h => exact hset.1 (List.mem_filter.1 h).1
      | ingesting h hb => exact hset.2 hb
      | indexed h hb hi =>
        have hkept := (List.mem_filter.1 (hi c hc)).2
        simp [hid] at hkept
    · intro ha d hd
      obtain ⟨hd, hsel⟩ := List.mem_filter.1 hd
      exact (hI d hd).delete (by simpa using hsel) (ha d hd)
  | begin t =>
    simp only [LazyRetriever.step] at hr
    split_ifs at hr with hfree hblank
    · cases hr
      exact iff_of_true (fun d hd => (hI d hd).blank (by simpa using hfree) hblank) trivial
    · cases hr
      exact iff_of_true (fun d hd => (hI d hd).begin (by simpa using hfree) t) trivial
  | embedded vectors =>
    simp only [LazyRetriever.step] at hr
    cases hi : s.retriever.ingesting with
    | none => simp [hi] at hr
    | some i =>
      obtain ⟨u, pending⟩ := i
      have hbatch : s.retriever.batch = pending := by simp [LazyRetriever.batch, hi]
      rw [hi] at hr
      dsimp only at hr
      rw [← hbatch] at hr
      split_ifs at hr with hlen
      · cases hr
        exact iff_of_true (fun d hd => (hI d hd).restore) fun h => absurd h hlen
      · cases hr
        constructor
        · intro hI' _ d hd hset c hc hid
          cases hI' d hd with
          | pending h => exact absurd h hset.1
          | ingesting h hb => cases hb
          | indexed h hb hi =>
            rcases List.mem_append.1 (hi c hc) with hold | hnew
            · have hkept := (List.mem_filter.1 hold).2
              simp [hid] at hkept
            · obtain ⟨d', hd', hc'⟩ := List.mem_flatMap.1 hnew
              exact ⟨d', hd', (owner_of_chunk c hc').symm.trans (owner_of_chunk c hc)⟩
        · exact fun ha d hd => (hI d hd).replace (ha (not_not.1 hlen) d hd)
  | failed =>
    obtain ⟨i, hi, rfl⟩ := Option.map_eq_some_iff.1 hr
    have hbatch : s.retriever.batch = i.2 := by simp [LazyRetriever.batch, hi]
    rw [← hbatch]
    exact iff_of_true (fun d hd => (hI d hd).restore) trivial
  | cancelled t =>
    simp only [LazyRetriever.step] at hr
    cases hi : s.retriever.ingesting with
    | none =>
      rw [hi] at hr
      cases hr
      exact iff_of_true hI fun batch hb => by simp [hi] at hb
    | some i =>
      obtain ⟨u, pending⟩ := i
      have hbatch : s.retriever.batch = pending := by simp [LazyRetriever.batch, hi]
      rw [hi] at hr
      dsimp only at hr
      split_ifs at hr with hu
      · cases hr
        subst hu
        constructor
        · rintro hI' batch hb d hmem hd
          cases hI' d hd with
          | pending h => exact .inl h
          | ingesting h hb => cases hb
          | indexed h hb hi => exact .inr hi
        · refine fun ha d hd => (hI d hd).cancelled fun hmem => ?_
          exact ha pending hi d (hbatch ▸ hmem) hd
      · cases hr
        refine iff_of_true hI fun batch hb => ?_
        simp [hi, hu] at hb

/-- **No source is lost** in a run that is mindful of them: while nothing is ingested, each is
    pending or in the index. -/
theorem sources_kept (cfg : RetrieverConfig V) (documents : List (RetrievedDocument V))
    {s : Watched V} (h : Steps (step cfg) (Mindful cfg) { retriever := { store := { documents } } } s)
    (hnone : s.retriever.ingesting = none) : Safe cfg s := by
  have hI : Inv cfg s := by
    refine h.keeps (I := Inv cfg) (fun d hd => ?_) fun s a s' hI ha hs =>
      (inv_step_iff hI hs).2 ha
    cases hd
  intro d hd
  cases hI d hd with
  | pending h => exact .inl h
  | ingesting h hd => simp [LazyRetriever.batch, hnone] at hd
  | indexed h hb hd => exact .inr hd

end Watched

/-! ## Samples -/

namespace Sample

def tea : SourceDocument String := { id := "d", text := "tea", source := "s" }

/-- The document with the same id of a tenant. -/
def teaOf (tenant : String) : SourceDocument String :=
  { tea with metadata := [("tenant_id", .text tenant)] }

/-- The embedder fails at the first attempt. -/
def attempted : List (LazyStep String) := [.addSource tea, .begin 0, .failed, .begin 1]

/-- The second attempt. -/
def attempt : Watched String :=
  ⟨{ store := { pending := [] }, ingesting := some (1, [tea]) }, [tea]⟩

/-- The task is cancelled while it awaits the embedder. -/
def cancelledAttempt : List (LazyStep String) := [.addSource tea, .begin 0, .cancelled 0]

/-- One tenant deletes a document, and another has one with the same id. -/
def twoTenants : List (LazyStep String) :=
  [.addSource (teaOf "a"), .addSource (teaOf "b"), .begin 0, .embedded [[1], [1]],
    .delete "a" "d"]

end Sample

open Sample

namespace Watched

/-- The embedder returns at the second attempt. -/
theorem sources_kept_sample : ∃ s, attempt.step memory (.embedded [[1]]) = some s ∧
    s.retriever.store.pending = [] ∧ s.owed = [tea] ∧ Safe memory s := by
  have hattempt : Steps (step memory) (Mindful memory) {} attempt := by
    refine steps_of_play (l := attempted) (fun a ha s => ?_) (by decide +kernel)
    simp only [attempted, List.mem_cons, List.not_mem_nil, or_false] at ha
    rcases ha with rfl | rfl | rfl | rfl <;> trivial
  have hmindful : Mindful memory attempt (.embedded [[1]]) :=
    fun _ d hd hset => absurd hd hset.2
  have hdone : (attempt.step memory (.embedded [[1]])).map (fun s =>
      (s.retriever.store.pending, s.owed, s.retriever.ingesting)) = some ([], [tea], none) := by
    decide +kernel
  obtain ⟨s, hs, hdone⟩ := Option.map_eq_some_iff.1 hdone
  simp only [Prod.mk.injEq] at hdone
  obtain ⟨hpending, howed, hnone⟩ := hdone
  exact ⟨s, hs, hpending, howed, sources_kept memory [] (hattempt.tail ⟨_, hmindful, hs⟩) hnone⟩

theorem unsafe_of_play {l : List (LazyStep String)} (h : (play (step memory) {} l).map (fun s =>
    (s.retriever.ingesting, decide (∃ d ∈ s.owed, d ∉ s.retriever.store.pending ∧
      ∃ c ∈ memory.chunker.chunk d, c ∉ s.retriever.store.documents))) = some (none, true)) :
    ∃ s, play (step memory) {} l = some s ∧ s.retriever.ingesting = none ∧ ¬ Safe memory s := by
  obtain ⟨s, hs, h⟩ := Option.map_eq_some_iff.1 h
  simp only [Prod.mk.injEq, decide_eq_true_eq] at h
  obtain ⟨hnone, d, hd, hpending, c, hc, hgone⟩ := h
  refine ⟨s, hs, hnone, fun hsafe => ?_⟩
  rcases hsafe d hd with h | h
  · exact hpending h
  · exact hgone (h c hc)

/-- The source of the cancelled task is gone, and so is the source of the other tenant. -/
theorem lost : (∃ s, play (step memory) {} cancelledAttempt = some s ∧
      s.retriever.ingesting = none ∧ ¬ Safe memory s) ∧
    ∃ s, play (step memory) {} twoTenants = some s ∧
      s.retriever.ingesting = none ∧ ¬ Safe memory s := by
  constructor
  · exact unsafe_of_play (by decide +kernel)
  · exact unsafe_of_play (by decide +kernel)

end Watched

end TracciaRuntime
