/-
  The index file and its sidecar.

  Rows and records belong together by their position only, and `_load` takes any two files that
  exist for a pair.  They are one while no thread has written the index and not yet opened the
  metadata file; the thread of a cancelled call must not meet another call, and what a thread has
  begun `json.dumps` must not break off.
-/
import TracciaRuntime.Retrieval.Faiss
import Mathlib.Data.List.Forall2

namespace TracciaRuntime

open Py Machine

variable {V : Type}

namespace FaissRetriever

variable (cfg : FaissConfig V)

/-! ## Pairs -/

/-- There are as many rows as records, and each is the normalised vector of its record. -/
def Aligned (index : List (List ℚ)) (records : List (FaissRecord V)) : Prop :=
  List.Forall₂ (fun row r => row = cfg.normalized r.vector) index records

/-- What is loaded belongs together. -/
def Sound (s : FaissRetriever V) : Prop :=
  ∀ index records, load cfg s = .ok (index, records) → Aligned cfg index records

/-- A thread has written the index, and not opened the metadata file that there is. -/
def Parted (s : FaissRetriever V) : Prop :=
  (∃ t, s.threads t = some .indexed ∨ ∃ records, s.threads t = some (.dumped records)) ∧
    ∃ records, s.metadataFile = .whole records

/-- What the files ask of a step. -/
def Careful (s : FaissRetriever V) : FaissStep V → Prop
  | .ingest _ _ => ∀ t, s.threads t = none
  | .delete _ tenantId documentId =>
    (∃ r ∈ s.records, r.tenantId = tenantId ∧ r.documentId = some documentId) →
      ∀ t, s.threads t = none
  | .write t => s.threads t = some .indexed → ∃ records, dumps cfg s.records = .ok records
  | .crash => ¬ Parted s
  | .leave _ | .cancel _ | .load => True

variable {cfg} {s s' : FaissRetriever V}

theorem aligned_iff {index : List (List ℚ)} {records : List (FaissRecord V)} :
    Aligned cfg index records ↔ index = rebuild cfg records := by
  rw [Aligned, ← List.forall₂_map_right_iff (R := (· = ·)), List.forall₂_eq_eq_eq]
  rfl

/-- Records keep their vectors in the file. -/
theorem rebuild_dumps {records dumped : List (FaissRecord V)}
    (h : dumps cfg records = .ok dumped) : rebuild cfg dumped = rebuild cfg records := by
  refine map_of_mapM h fun r _ r' hr => ?_
  obtain ⟨m, -, rfl⟩ := map_eq_ok.1 hr
  rfl

/-! ## What a thread has done so far -/

/-- Two whole files are a pair. -/
def Paired (cfg : FaissConfig V) (s : FaissRetriever V) : Prop :=
  ∀ index records, s.indexFile = .whole index → s.metadataFile = .whole records →
    index = rebuild cfg records

/-- The files when the only thread has come this far. -/
def Phase (cfg : FaissConfig V) (s : FaissRetriever V) : Persist V → Prop
  | .queued => Paired cfg s
  | .indexing index => s.indexFile = .torn ∧ index = rebuild cfg s.records
  | .indexed => s.indexFile = .whole (rebuild cfg s.records)
  | .dumped records =>
    s.indexFile = .whole (rebuild cfg s.records) ∧ dumps cfg s.records = .ok records
  | .writing records =>
    s.indexFile = .whole (rebuild cfg s.records) ∧ dumps cfg s.records = .ok records ∧
      s.metadataFile = .torn

/-- No thread runs, or one does. -/
inductive Threads (cfg : FaissConfig V) (s : FaissRetriever V) : Prop where
  | none (h : s.threads = fun _ => none) (hp : Paired cfg s)
  | one (t : Nat) (p : Persist V) (h : s.threads = Function.update (fun _ => none) t (some p))
      (hr : s.running = true) (hp : Phase cfg s p)

/-- What careful steps keep. -/
structure Kept (cfg : FaissConfig V) (s : FaissRetriever V) : Prop where
  index : s.index = rebuild cfg s.records
  threads : Threads cfg s

theorem Paired.sound (h : Paired cfg s) : Sound cfg s := by
  intro index records hload
  rw [aligned_iff]
  unfold load at hload
  split at hload
  · split at hload
    · cases hload; rfl
    · cases hload; rfl
    · cases hload
    · cases hload
    · rename_i hi hm
      cases hload
      exact h _ _ hi hm
  · cases hload; rfl

theorem Threads.paired (h : Threads cfg s) (hs : ¬ Parted s) : Paired cfg s := by
  cases h with
  | none _ hp => exact hp
  | one t p ht _ hp =>
    have htp : s.threads t = some p := by rw [ht, Function.update_self]
    intro index records hi hm
    cases p with
    | queued => exact hp index records hi hm
    | indexing => rw [hp.1] at hi; cases hi
    | indexed => exact absurd ⟨⟨t, .inl htp⟩, records, hm⟩ hs
    | dumped r => exact absurd ⟨⟨t, .inr ⟨r, htp⟩⟩, records, hm⟩ hs
    | writing => rw [hp.2.2] at hm; cases hm

theorem Threads.unlock {l : Option Nat} (h : Threads cfg s) : Threads cfg { s with lock := l } := by
  cases h with
  | none hn hp => exact .none hn hp
  | one t p ht hr hp =>
    refine .one t p ht hr ?_
    cases p <;> exact hp

/-! ## Steps -/

theorem update_none {t : Nat} {p : Option (Persist V)} :
    Function.update (Function.update (fun _ : Nat => (none : Option (Persist V))) t p) t none =
      fun _ => none := by
  rw [Function.update_idem, Function.update_eq_self]

theorem Kept.rebuilt {t : Nat} {records : List (FaissRecord V)} (hn : s.threads = fun _ => none)
    (hp : Paired cfg s) (hr : s.running = true) : Kept cfg (rebuilt cfg t records s) := by
  unfold FaissRetriever.rebuilt
  dsimp only
  split
  · refine ⟨rfl, .one t .queued ?_ hr hp⟩
    rw [hn]
  · exact ⟨rfl, .none hn hp⟩

theorem Kept.write {t : Nat} {p : Persist V} (h : Kept cfg s) (ht : s.threads t = some p)
    (hd : p = .indexed → ∃ records, dumps cfg s.records = .ok records) :
    Kept cfg (write cfg t s p) := by
  obtain ⟨hi, hn | ⟨u, q, hu, hr, hq⟩⟩ := h
  · rw [hn] at ht; cases ht
  · obtain ⟨rfl, rfl⟩ : t = u ∧ q = p := by
      rw [hu, Function.update_apply] at ht
      split_ifs at ht with htu
      cases ht
      exact ⟨htu, rfl⟩
    have one : ∀ p' : Persist V, Function.update s.threads t (some p') =
        Function.update (fun _ => none) t (some p') := fun p' => by rw [hu, Function.update_idem]
    cases q with
    | queued => exact ⟨hi, .one t _ (one _) hr ⟨rfl, hi⟩⟩
    | indexing index => exact ⟨hi, .one t _ (one _) hr (by rw [hq.2]; rfl)⟩
    | indexed =>
      obtain ⟨records, hrecords⟩ := hd rfl
      simp only [FaissRetriever.write, hrecords]
      exact ⟨hi, .one t _ (one _) hr ⟨hq, hrecords⟩⟩
    | dumped records => exact ⟨hi, .one t _ (one _) hr ⟨hq.1, hq.2, rfl⟩⟩
    | writing records =>
      refine ⟨hi, .none (by rw [FaissRetriever.write, hu, update_none]) ?_⟩
      intro index records' hindex hrecords
      -- what the thread has written are the rows and the records of one moment
      cases hindex.symm.trans hq.1
      cases hrecords
      exact (rebuild_dumps hq.2.1).symm

theorem Kept.step {a : FaissStep V} (h : Kept cfg s) (ha : Careful cfg s a)
    (hs : step cfg s a = some s') : Kept cfg s' := by
  have still : (∀ t, s.threads t = none) → s.threads = (fun _ => none) ∧ Paired cfg s := by
    intro hn
    have hthreads : s.threads = fun _ => none := funext hn
    refine ⟨hthreads, h.threads.paired ?_⟩
    rintro ⟨⟨t, ht | ⟨r, ht⟩⟩, -⟩
    · rw [hn] at ht; cases ht
    · rw [hn] at ht; cases ht
  cases a with
  | ingest t documents =>
    obtain ⟨hn, hp⟩ := still ha
    simp only [FaissRetriever.step] at hs
    split at hs
    · rename_i hg
      split at hs
      · cases hs; exact .rebuilt hn hp hg.1
      · cases hs; exact h
    · cases hs
  | delete t tenantId documentId =>
    simp only [FaissRetriever.step] at hs
    split at hs
    · rename_i hg
      split at hs
      · rename_i hlt
        cases hs
        obtain ⟨r, hr, hsel⟩ := List.length_filter_lt_length_iff_exists.1 hlt
        obtain ⟨hn, hp⟩ := still (ha ⟨r, hr, by simpa using hsel⟩)
        exact .rebuilt hn hp hg.1
      · rename_i hlt
        have hsame : FaissRetriever.delete tenantId documentId s.records = s.records :=
          List.filter_sublist.eq_of_length_le (not_lt.1 hlt)
        rw [hsame] at hs
        cases hs
        exact h
    · cases hs
  | write t =>
    obtain ⟨p, hp, rfl⟩ := Option.map_eq_some_iff.1 hs
    exact h.write hp fun he => ha (he ▸ hp)
  | leave t =>
    simp only [FaissRetriever.step] at hs
    split at hs
    · cases hs; exact ⟨h.index, h.threads.unlock⟩
    · cases hs
  | cancel t =>
    simp only [FaissRetriever.step] at hs
    split at hs
    · split at hs
      · rename_i hq
        cases hs
        refine ⟨h.index, ?_⟩
        cases h.threads with
        | none hn hp => rw [hn] at hq; cases hq
        | one u p hu _ hp =>
          rw [hu, Function.update_apply] at hq
          split_ifs at hq with htu
          cases hq
          exact .none (by rw [hu, htu, update_none]) hp
      · cases hs; exact ⟨h.index, h.threads.unlock⟩
    · cases hs
  | crash =>
    cases hs
    exact ⟨rfl, .none rfl (h.threads.paired ha)⟩
  | load =>
    simp only [FaissRetriever.step] at hs
    split at hs
    · cases hs
    · rename_i hdown
      cases h.threads with
      | none hn hp =>
        split at hs
        · rename_i index records hload
          cases hs
          exact ⟨aligned_iff.1 (hp.sound _ _ hload), .none hn hp⟩
        · cases hs
      | one _ _ _ hr _ => exact absurd hr hdown

theorem kept_new : Kept cfg {} :=
  ⟨rfl, .none rfl fun _ _ h => by cases h⟩

/-- **What is loaded belongs together** after a crash at any point at which the files are not
    parted, whatever the calls and the crashes before, if every step was careful. -/
theorem sidecar_sound (h : Steps (step cfg) (Careful cfg) {} s) (hs : ¬ Parted s) :
    Sound cfg s := by
  have hk : Kept cfg s := h.keeps kept_new fun _ _ _ hk ha hstep => hk.step ha hstep
  exact (hk.threads.paired hs).sound

/-! ## Runs -/

theorem steps_write {s₀ : FaissRetriever V} {t : Nat} {p : Persist V}
    (h : Steps (step cfg) (Careful cfg) s₀ s) (ht : s.threads t = some p)
    (hd : p = .indexed → ∃ records, dumps cfg s.records = .ok records) :
    Steps (step cfg) (Careful cfg) s₀ (write cfg t s p) := by
  refine h.tail ⟨.write t, fun hi => hd ?_, ?_⟩
  · rw [ht] at hi
    exact Option.some.inj hi
  · rw [step, ht, Option.map_some]

/-- A call that is left alone stores its records. -/
theorem ingest_persists {t : Nat} {documents : List (SourceDocument V)}
    {records dumped : List (FaissRecord V)} (hc : cfg.persistent = true) (hr : s.running = true)
    (hl : s.lock = none) (hn : ∀ t, s.threads t = none)
    (hi : ingest cfg documents s.records = .ok records) (hd : dumps cfg records = .ok dumped) :
    ∃ s', Steps (step cfg) (Careful cfg) s s' ∧ (∀ t, s'.threads t = none) ∧
      load cfg s' = .ok (rebuild cfg records, dumped) := by
  have h₀ : Steps (step cfg) (Careful cfg) s (rebuilt cfg t records s) :=
    .single ⟨.ingest t documents, hn, by simp [step, hr, hl, hn, hi]⟩
  simp only [rebuilt, hc, if_true] at h₀
  have h₁ := steps_write (p := .queued) h₀ (Function.update_self ..) (fun h => by cases h)
  have h₂ := steps_write (p := .indexing _) h₁ (Function.update_self ..) (fun h => by cases h)
  have h₃ := steps_write (p := .indexed) h₂ (Function.update_self ..) (fun _ => ⟨_, hd⟩)
  simp only [write, hd] at h₃
  have h₄ := steps_write (p := .dumped _) h₃ (Function.update_self ..) (fun h => by cases h)
  have h₅ := steps_write (p := .writing _) h₄ (Function.update_self ..) (fun h => by cases h)
  refine ⟨_, h₅, fun u => ?_, by simp [load, hc, write]⟩
  by_cases hu : u = t
  · simp [write, hu]
  · simp [write, hu, hn]

namespace Desk

def document (id : String) : SourceDocument String := { id, text := id, source := "desk" }

/-- An embedder of unit vectors. -/
def desk : FaissConfig String where
  embed texts := .ok (texts.map fun _ => [1, 0])
  dimensions := 2
  str := id
  write _ := .ok ()
  normalized := id
  json := .ok

/-- Call `t` ingests a document, and its thread takes `n` steps. -/
def ingests (t n : Nat) (id : String) : List (FaissStep String) :=
  .ingest t [document id] :: List.replicate n (.write t)

theorem dumps_desk (records : List (FaissRecord String)) : dumps desk records = .ok records := by
  induction records with
  | nil => rfl
  | cons r records ih =>
    rw [dumps, List.mapM_cons]
    rw [dumps] at ih
    rw [ih]
    rfl

end Desk

open Desk

/-- A document is stored. -/
theorem sidecar_sound_desk : ∃ s index records, Steps (step desk) (Careful desk) {} s ∧
    load desk s = .ok (index, records) ∧ records.length = 1 ∧ Aligned desk index records := by
  obtain ⟨records, hrecords, hlength⟩ : ∃ records, ingest desk [document "a"] [] = .ok records ∧
      records.length = 1 := by
    have hlength : (ingest desk [document "a"] []).toOption.map (·.length) = some 1 := by
      decide +kernel
    obtain ⟨records, hrecords, hone⟩ := Option.map_eq_some_iff.1 hlength
    exact ⟨records, by cases h : ingest desk [document "a"] [] <;> simp_all [Except.toOption], hone⟩
  obtain ⟨s, hs, hn, hload⟩ := ingest_persists (s := {}) (t := 0) rfl rfl rfl (fun _ => rfl)
    hrecords (dumps_desk records)
  have hparted : ¬ Parted s := by
    rintro ⟨⟨t, ht | ⟨r, ht⟩⟩, -⟩
    · rw [hn] at ht; cases ht
    · rw [hn] at ht; cases ht
  exact ⟨s, _, _, hs, hload, hlength, sidecar_sound hs hparted _ _ hload⟩

/-- The process crashes between the two files. -/
theorem sidecar_parted : ¬ ∀ (cfg : FaissConfig String) (s : FaissRetriever String),
    Steps (step cfg) anything {} s → Sound cfg s := by
  intro hclaim
  obtain ⟨s, hs, h⟩ := Option.map_eq_some_iff.1 (show
    ((play (step desk) {} (ingests 0 5 "a" ++ .leave 0 :: ingests 1 2 "b" ++ [.crash])).map
      fun s => (load desk s).toOption.map fun x => (x.1.length, x.2.length)) = some (some (2, 1))
    by decide +kernel)
  cases hload : load desk s with
  | error e => rw [hload] at h; cases h
  | ok x =>
    have hlength := (hclaim desk s (steps_of_play (fun _ _ _ => trivial) hs) x.1 x.2 hload).length_eq
    rw [hload] at h
    simp only [Except.toOption, Option.some.injEq, Option.map_some, Prod.mk.injEq] at h
    omega

end FaissRetriever

end TracciaRuntime
