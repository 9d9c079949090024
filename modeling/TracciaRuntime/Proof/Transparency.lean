/-
  The rows of governed queries with and without a cache.

  * `Inv`, `step_inv`: what the store, the futures and the calls hold;
  * `Returned`: what a call returns, by the way it takes;
  * `transparent_iff`: all calls return the rows that they return without a cache, exactly if what
    the cache would store comes back as itself, or nothing is stored.
-/
import TracciaRuntime.Governance.Executor
import TracciaRuntime.Py.Result

namespace TracciaRuntime

open Py Machine

namespace GovernedQueryExecutor
variable (e : GovernedQueryExecutor) (asked : GovernedQuery → Prop)

/-- What `execute` returns without a cache. -/
def uncached (q : GovernedQuery) : Except Exn (List ResultRow × Bool) := do
  q.governed
  e.finish q.value false

/-- The same rows, or the same exception. -/
def SameResult : Except Exn (List ResultRow × Bool) → Except Exn (List ResultRow × Bool) → Prop
  | .ok x, .ok y => (ofRows x.1).Same (ofRows y.1)
  | .error exn, .error exn' => exn = exn'
  | .ok _, .error _ | .error _, .ok _ => False

/-- Only these queries are asked. -/
def Asks (_ : GovernedCalls) (m : GovernedMove) : Prop := ∀ q, m = .call q → asked q

/-- **Every call** returns what it returns without a cache. -/
def Transparent : Prop :=
  ∀ w, Steps e.step (Asks asked) {} w → ∀ q r, (q, .ended r) ∈ w.calls → SameResult r (e.uncached q)

/-- A query is let through and goes to the cache. -/
def Caches (q : GovernedQuery) : Prop :=
  q.governed = .ok () ∧ ∃ p, e.cache = some p ∧ p.enabled = true

/-- The request has the ids that the scope of the cache needs. -/
def Keyed (q : GovernedQuery) : Prop :=
  ∀ p, e.cache = some p → ∃ key, CacheService.scopeMaterial q.context p.scope = .ok key

/-- The same rows, or too many of both. -/
def Agree (rows rows' : List ResultRow) : Prop :=
  (ofRows rows).Same (ofRows rows') ∨ e.maximumRows < rows.length ∧ e.maximumRows < rows'.length

/-- What is stored comes back as itself, or nothing is stored, or nothing of it is returned. -/
def Kept (q : GovernedQuery) : Prop :=
  ∃ document, q.value.dumps = some document ∧
    (q.value.plain = true ∨ e.maximumValueBytes < e.size document ∨ e.maximumRows < q.rows.length)

/-- Queries that go to the cache have a key, can be written, are kept, and share the key only with
    queries that have the same rows. -/
def Clear : Prop :=
  ∀ q, asked q → e.Caches q → e.Keyed q ∧ e.Kept q ∧
    ∀ q', asked q' → e.Caches q' → e.Agree q'.rows q.rows

/-! ## Rows -/

section
variable {e : GovernedQueryExecutor} {q : GovernedQuery} {rows rows' : List ResultRow}
  {hit hit' : Bool}

theorem SameResult.refl (r : Except Exn (List ResultRow × Bool)) : SameResult r r := by
  cases r with
  | ok x => exact (rfl : (ofRows x.1).norm = _)
  | error exn => exact (rfl : exn = exn)

theorem rowsOf_ofRows : rowsOf (ofRows rows) = .ok rows := by
  rw [ofRows, rowsOf, mapM_eq_ok, List.forall₂_map_left_iff, List.forall₂_same]
  exact fun _ _ => rfl

theorem finish_ofRows : e.finish (ofRows rows) hit =
    if rows.length > e.maximumRows then
      .error (.policyDenied "governed query result exceeded the configured actual row quota")
    else .ok (rows, hit) := by
  rw [finish, rowsOf_ofRows]
  show (e.validateActualRows rows >>= fun _ => Except.ok (rows, hit)) = _
  rw [validateActualRows]
  split_ifs <;> rfl

theorem uncached_eq (h : q.governed = .ok ()) : e.uncached q = e.finish q.value false := by
  rw [uncached, h]
  rfl

theorem length_of_same (h : (ofRows rows).Same (ofRows rows')) : rows.length = rows'.length := by
  have hall : ∀ l : List Object, (Object.normAll l).length = l.length := by
    intro l
    induction l with
    | nil => rfl
    | cons x l ih => rw [Object.normAll, List.length_cons, ih, List.length_cons]
  simp only [Object.Same, ofRows, Object.norm, Object.list.injEq] at h
  have := congrArg List.length h
  rwa [hall, hall, List.length_map, List.length_map] at this

theorem sameResult_finish : SameResult (e.finish (ofRows rows) hit) (e.finish (ofRows rows') hit') ↔
    e.Agree rows rows' := by
  rw [finish_ofRows, finish_ofRows, Agree]
  split_ifs with h h' h'
  · simp [SameResult, h, h']
  · constructor
    · exact False.elim
    · rintro (hsame | hmany)
      · exact h' (length_of_same hsame ▸ h)
      · exact h' hmany.2
  · constructor
    · exact False.elim
    · rintro (hsame | hmany)
      · exact h (length_of_same hsame ▸ h')
      · exact h hmany.1
  · simp [SameResult, h]

theorem Agree.trans {rows'' : List ResultRow} (h : e.Agree rows rows') (h' : e.Agree rows' rows'') :
    e.Agree rows rows'' := by
  rcases h with h | h
  · rcases h' with h' | h'
    · exact .inl (Eq.trans h h')
    · exact .inr ⟨length_of_same h ▸ h'.1, h'.2⟩
  · rcases h' with h' | h'
    · exact .inr ⟨h.1, length_of_same h' ▸ h.2⟩
    · exact .inr ⟨h.1, h'.2⟩

/-- A document of rows is read as as many rows. -/
theorem loads_ofRows {document : Value} (h : (ofRows rows).dumps = some document) :
    ∃ rows', Object.loads document = ofRows rows' ∧ rows'.length = rows.length := by
  have hall : ∀ (rows : List ResultRow) (vs : List Value),
      Object.dumpsAll (rows.map .dict) = some vs →
      ∃ rows' : List ResultRow, Object.loadsAll vs = rows'.map .dict ∧
        rows'.length = rows.length := by
    intro rows
    induction rows with
    | nil =>
      intro vs h
      cases h
      exact ⟨[], rfl, rfl⟩
    | cons row rows ih =>
      intro vs h
      rw [List.map_cons, Object.dumpsAll] at h
      obtain ⟨v, hv, h⟩ := Option.bind_eq_some_iff.1 h
      obtain ⟨vs', hvs, h⟩ := Option.bind_eq_some_iff.1 h
      cases h
      rw [Object.dumps] at hv
      split_ifs at hv
      obtain ⟨items, -, rfl⟩ := Option.map_eq_some_iff.1 hv
      obtain ⟨rows', hrows, hlen⟩ := ih vs' hvs
      exact ⟨_ :: rows', by rw [Object.loadsAll, Object.loads, hrows, List.map_cons],
        congrArg (· + 1) hlen⟩
  rw [ofRows, Object.dumps] at h
  obtain ⟨vs, hvs, rfl⟩ := Option.map_eq_some_iff.1 h
  obtain ⟨rows', hrows, hlen⟩ := hall rows vs hvs
  exact ⟨rows', by rw [Object.loads, hrows, ofRows], hlen⟩

/-- A hit returns the rows of the query that was stored, exactly if they are plain, or too
    many. -/
theorem sameResult_hit {document : Value} (h : q.value.dumps = some document) :
    SameResult (e.finish (.loads document) true) (e.finish q.value false) ↔
      q.value.plain = true ∨ e.maximumRows < q.rows.length := by
  obtain ⟨rows', hloads, hlen⟩ := loads_ofRows h
  have hsame := Object.same_loads_iff h
  rw [hloads] at hsame ⊢
  rw [GovernedQuery.value, sameResult_finish, Agree, hlen, and_self]
  exact or_congr_left hsame

end

/-! ## Calls -/

/-- Calls for this query go through the cache. -/
structure Cached (q : GovernedQuery) : Prop where
  asked : asked q
  caches : e.Caches q
  keyed : e.Keyed q

/-- What a future is set to. -/
def settled (q : GovernedQuery) : Except Exn Object :=
  if q.value.dumps = none then .error (.other "TypeError") else .ok q.value

/-- What a call returns, by the way it takes. -/
inductive Returned (q : GovernedQuery) : Except Exn (List ResultRow × Bool) → Prop
  | refused {exn : Exn} : q.governed = .error exn → Returned q (.error exn)
  | keyless {exn : Exn} : asked q → e.Caches q → ¬ e.Keyed q → Returned q (.error exn)
  | loaded : q.governed = .ok () → Returned q (e.finish q.value false)
  | raised {q' : GovernedQuery} : e.Cached asked q' → q'.value.dumps = none →
    Returned q (.error (.other "TypeError"))
  | shared {q' : GovernedQuery} {hit : Bool} : e.Cached asked q → e.Cached asked q' →
    Returned q (e.finish q'.value hit)
  | hit {q' : GovernedQuery} {document : Value} : e.Cached asked q → e.Cached asked q' →
    q'.value.dumps = some document → e.size document ≤ e.maximumValueBytes →
    Returned q (e.finish (.loads document) true)

/-- What holds of a call. -/
def Holds (q : GovernedQuery) : QueryStage → Prop
  | .asking | .joining | .waiting _ | .loading (some _) => e.Cached asked q
  | .loading none => q.governed = .ok ()
  | .storing _ document => e.Cached asked q ∧ q.value.dumps = some document ∧
    e.size document ≤ e.maximumValueBytes
  | .leaving result => e.Cached asked q ∧ result = settled q
  | .ended result => e.Returned asked q result

structure Inv (w : GovernedCalls) : Prop where
  entry : ∀ document, w.entry = some document → ∃ q, e.Cached asked q ∧
    q.value.dumps = some document ∧ e.size document ≤ e.maximumValueBytes
  futures : ∀ result, some result ∈ w.futures → ∃ q, e.Cached asked q ∧ result = settled q
  calls : ∀ q stage, (q, stage) ∈ w.calls → e.Holds asked q stage

section
variable {e : GovernedQueryExecutor} {asked : GovernedQuery → Prop} {w w' : GovernedCalls} {i : Nat}
  {q q' : GovernedQuery}

theorem Inv.goes (h : e.Inv asked w) {stage : QueryStage} (hs : e.Holds asked q stage) :
    e.Inv asked (w.goes i q stage) where
  entry := h.entry
  futures := h.futures
  calls q' stage' hs' := by
    rcases List.mem_or_eq_of_mem_set hs' with hs' | heq
    · exact h.calls q' stage' hs'
    · cases heq
      exact hs

theorem Inv.settle (h : e.Inv asked w) {future : Nat} {result : Except Exn Object}
    (hq : e.Cached asked q) (hresult : result = settled q) :
    e.Inv asked (w.settle i q future result) where
  entry := h.entry
  futures r hr := by
    rcases List.mem_or_eq_of_mem_set hr with hr | hr
    · exact h.futures r hr
    · cases hr
      exact ⟨q, hq, hresult⟩
  calls := by
    have hleaving : e.Holds asked q (.leaving result) := ⟨hq, hresult⟩
    exact (h.goes hleaving).calls

/-- What a call returns that has got the result of a future. -/
theorem returned_settled (hq : e.Cached asked q) (hq' : e.Cached asked q') (hit : Bool) :
    e.Returned asked q ((settled q').bind fun v => e.finish v hit) := by
  rw [settled]
  split_ifs with h
  · exact .raised hq' h
  · exact .shared hq hq'

theorem begin_holds (hq : asked q) : e.Holds asked q (e.begin q) := by
  unfold begin
  cases hgoverned : q.governed with
  | error exn => exact .refused hgoverned
  | ok =>
    cases hcache : e.cache with
    | none => exact hgoverned
    | some p =>
      dsimp only
      split_ifs with henabled
      · have hcaches : e.Caches q := ⟨hgoverned, p, hcache, henabled⟩
        cases hkey : CacheService.scopeMaterial q.context p.scope with
        | error exn =>
          refine .keyless hq hcaches fun hkeyed => ?_
          obtain ⟨key, hk⟩ := hkeyed p hcache
          rw [hkey] at hk
          cases hk
        | ok key =>
          refine ⟨hq, hcaches, fun p' hp' => ?_⟩
          rw [hcache] at hp'
          cases hp'
          exact ⟨key, hkey⟩
      · exact hgoverned

theorem resume_inv {fails : Bool} {stage : QueryStage} (h : e.Inv asked w)
    (hs : e.Holds asked q stage) (hstep : e.resume q w i fails stage = some w') :
    e.Inv asked w' := by
  cases stage with
  | asking =>
    rw [resume] at hstep
    cases hentry : if fails then none else w.entry with
    | none =>
      rw [hentry] at hstep
      cases hstep
      exact h.goes hs
    | some document =>
      rw [hentry] at hstep
      cases hstep
      have hstored : w.entry = some document := by
        cases fails with
        | true => cases hentry
        | false => exact hentry
      obtain ⟨q', hq', hdumps, hsize⟩ := h.entry document hstored
      exact h.goes (.hit hs hq' hdumps hsize)
  | joining =>
    rw [resume] at hstep
    cases hinflight : w.inflight with
    | some future =>
      rw [hinflight] at hstep
      cases hstep
      exact h.goes hs
    | none =>
      rw [hinflight] at hstep
      cases hstep
      have hloading : e.Holds asked q (.loading (some w.futures.length)) := hs
      refine ⟨h.entry, fun r hr => ?_, (h.goes hloading).calls⟩
      rcases List.mem_append.1 hr with hr | hr
      · exact h.futures r hr
      · cases List.mem_singleton.1 hr
  | waiting future =>
    rw [resume] at hstep
    cases hfuture : w.futures[future]? with
    | none => rw [hfuture] at hstep; cases hstep
    | some o =>
      rw [hfuture] at hstep
      cases o with
      | none => cases hstep
      | some result =>
        cases hstep
        obtain ⟨q', hq', rfl⟩ := h.futures result (List.mem_of_getElem? hfuture)
        exact h.goes (returned_settled hs hq' true)
  | loading future =>
    cases future with
    | none =>
      rw [resume] at hstep
      cases hstep
      exact h.goes (.loaded hs)
    | some future =>
      rw [resume] at hstep
      cases hdumps : q.value.dumps with
      | none =>
        rw [hdumps] at hstep
        cases hstep
        exact h.settle hs (by rw [settled, if_pos hdumps])
      | some document =>
        rw [hdumps] at hstep
        dsimp only at hstep
        split_ifs at hstep with hsize
        · cases hstep
          exact h.settle hs (by rw [settled, hdumps, if_neg nofun])
        · cases hstep
          exact h.goes ⟨hs, hdumps, Nat.not_lt.1 hsize⟩
  | storing future document =>
    rw [resume] at hstep
    cases hstep
    obtain ⟨hq, hdumps, hsize⟩ := hs
    have hsettle : e.Inv asked (w.settle i q future (.ok q.value)) :=
      h.settle hq (by rw [settled, hdumps, if_neg nofun])
    refine ⟨fun d hd => ?_, hsettle.futures, hsettle.calls⟩
    cases fails with
    | true => exact h.entry d hd
    | false =>
      cases hd
      exact ⟨q, hq, hdumps, hsize⟩
  | leaving result =>
    rw [resume] at hstep
    cases hstep
    obtain ⟨hq, rfl⟩ := hs
    have hended : e.Holds asked q (.ended ((settled q).bind fun v => e.finish v false)) :=
      returned_settled hq hq false
    exact ⟨h.entry, h.futures, (h.goes hended).calls⟩
  | ended result => cases hstep

theorem step_inv {m : GovernedMove} (h : e.Inv asked w) (hm : Asks asked w m)
    (hstep : e.step w m = some w') : e.Inv asked w' := by
  cases m with
  | call q =>
    cases hstep
    refine ⟨h.entry, h.futures, fun q' stage hs => ?_⟩
    rcases List.mem_append.1 hs with hs | hs
    · exact h.calls q' stage hs
    · cases List.mem_singleton.1 hs
      exact begin_holds (hm q rfl)
  | drop =>
    cases hstep
    exact ⟨nofun, h.futures, h.calls⟩
  | resume i fails =>
    obtain ⟨c, hc, hstep⟩ := Option.bind_eq_some_iff.1 hstep
    exact resume_inv h (h.calls c.1 c.2 (List.mem_of_getElem? hc)) hstep

theorem steps_inv (h : Steps e.step (Asks asked) {} w) : e.Inv asked w := by
  have hzero : e.Inv asked {} :=
    ⟨nofun, fun _ hr => absurd hr List.not_mem_nil, fun _ _ hs => absurd hs List.not_mem_nil⟩
  exact h.keeps hzero fun _ _ _ hs hm hstep => step_inv hs hm hstep

/-- Where the queries are clear, every way leads to the rows that there are without a cache. -/
theorem Clear.same (h : e.Clear asked) {r : Except Exn (List ResultRow × Bool)}
    (hr : e.Returned asked q r) : SameResult r (e.uncached q) := by
  cases hr with
  | @refused exn hgoverned =>
    rw [uncached, hgoverned]
    exact SameResult.refl (.error exn)
  | keyless hq hcaches hkeyed => exact absurd (h q hq hcaches).1 hkeyed
  | loaded hgoverned =>
    rw [uncached_eq hgoverned]
    exact SameResult.refl _
  | @raised q' hq' hdumps =>
    obtain ⟨document, hd, -⟩ := (h q' hq'.asked hq'.caches).2.1
    rw [hdumps] at hd
    cases hd
  | @shared q' hit hq hq' =>
    rw [uncached_eq hq.caches.1, GovernedQuery.value, GovernedQuery.value, sameResult_finish]
    exact (h q hq.asked hq.caches).2.2 q' hq'.asked hq'.caches
  | @hit q' document hq hq' hdumps hsize =>
    obtain ⟨d, hd, hkept⟩ := (h q' hq'.asked hq'.caches).2.1
    rw [hdumps] at hd
    cases hd
    have hagree := (h q hq.asked hq.caches).2.2 q' hq'.asked hq'.caches
    have hhit : SameResult (e.finish (.loads document) true) (e.finish q'.value false) :=
      (sameResult_hit hdumps).2 (by
        rcases hkept with hplain | hbig | hmany
        · exact .inl hplain
        · exact absurd hbig (Nat.not_lt.2 hsize)
        · exact .inr hmany)
    obtain ⟨rows', hloads, -⟩ := loads_ofRows hdumps
    rw [hloads] at hhit ⊢
    rw [GovernedQuery.value, sameResult_finish] at hhit
    rw [uncached_eq hq.caches.1, GovernedQuery.value, sameResult_finish]
    exact hhit.trans hagree

/-! ## Runs -/

theorem begin_eq (hq : e.Cached asked q) : e.begin q = .asking := by
  obtain ⟨hgoverned, p, hcache, henabled⟩ := hq.caches
  obtain ⟨key, hkey⟩ := hq.keyed p hcache
  simp only [begin, hgoverned, hcache, henabled, hkey, if_true]

theorem steps_call (h : Steps e.step (Asks asked) {} w) (hq : asked q) :
    Steps e.step (Asks asked) {} { w with calls := w.calls ++ [(q, e.begin q)] } := by
  refine h.tail ⟨.call q, fun q' heq => ?_, rfl⟩
  cases heq
  exact hq

theorem steps_resume (h : Steps e.step (Asks asked) {} w) (i : Nat) (fails : Bool)
    {stage : QueryStage} (hc : w.calls[i]? = some (q, stage))
    (hstep : e.resume q w i fails stage = some w') : Steps e.step (Asks asked) {} w' := by
  refine h.tail ⟨.resume i fails, fun q' heq => ?_, ?_⟩
  · cases heq
  · rw [step, hc]
    exact hstep

/-- A first call misses, and asks the backend. -/
theorem steps_loading (hq : e.Cached asked q) : Steps e.step (Asks asked) {}
    ⟨none, some 0, [none], [(q, .loading (some 0))]⟩ := by
  have hcall : Steps e.step (Asks asked) {} { calls := [(q, .asking)] } := by
    rw [← begin_eq hq]
    exact steps_call .refl hq.asked
  have hmiss : Steps e.step (Asks asked) {} { calls := [(q, .joining)] } :=
    steps_resume hcall 0 false rfl rfl
  exact steps_resume hmiss 0 false rfl rfl

/-- The owner of the only future sets it to its rows, and stores them if they are not too
    large. -/
theorem exists_settled (h : Steps e.step (Asks asked) {} w)
    (hc : w.calls[0]? = some (q, .loading (some 0))) (hfutures : w.futures = [none])
    {document : Value} (hdumps : q.value.dumps = some document) :
    ∃ w', Steps e.step (Asks asked) {} w' ∧ w'.futures = [some (.ok q.value)] ∧
      w'.calls = w.calls.set 0 (q, .leaving (.ok q.value)) ∧
      (e.size document ≤ e.maximumValueBytes → w'.entry = some document) := by
  by_cases hsize : e.size document > e.maximumValueBytes
  · have hsettled : Steps e.step (Asks asked) {} (w.settle 0 q 0 (.ok q.value)) :=
      steps_resume h 0 false hc (by
        rw [resume, hdumps]
        exact if_pos hsize)
    refine ⟨_, hsettled, ?_, rfl, fun hle => absurd hsize (Nat.not_lt.2 hle)⟩
    rw [GovernedCalls.settle, hfutures]
    rfl
  · have hstoring : Steps e.step (Asks asked) {} (w.goes 0 q (.storing 0 document)) :=
      steps_resume h 0 false hc (by
        rw [resume, hdumps]
        exact if_neg hsize)
    have hlt : 0 < w.calls.length := (List.getElem?_eq_some_iff.1 hc).1
    have hsettled : Steps e.step (Asks asked) {}
        { (w.goes 0 q (.storing 0 document)).settle 0 q 0 (.ok q.value) with
          entry := some document } :=
      steps_resume hstoring 0 false (List.getElem?_set_self hlt) rfl
    refine ⟨_, hsettled, ?_, ?_, fun _ => rfl⟩
    · simp only [GovernedCalls.settle, GovernedCalls.goes, hfutures, List.set_cons_zero]
    · simp only [GovernedCalls.settle, GovernedCalls.goes, List.set_set]

/-! ## What the queries have to be like -/

/-- What `execute` raises without a cache is that there are too many rows. -/
theorem typeName_of_finish {rows : List ResultRow} {hit : Bool} {exn : Exn}
    (h : SameResult (.error exn) (e.finish (ofRows rows) hit)) :
    exn.typeName = "PolicyDeniedError" := by
  rw [finish_ofRows] at h
  split_ifs at h
  · rw [show exn = _ from h]
    rfl
  · exact h.elim

theorem typeName_of_required {part : Option String} {m : String} {exn : Exn}
    (h : CacheService.required part m = .error exn) : exn.typeName = "ValueError" := by
  unfold CacheService.required at h
  split at h
  · split at h <;> cases h
    rfl
  · cases h
    rfl

theorem typeName_of_scopeMaterial {context : CacheContext} {scope : CacheScope} {exn : Exn}
    (h : CacheService.scopeMaterial context scope = .error exn) : exn.typeName = "ValueError" := by
  unfold CacheService.scopeMaterial at h
  -- each part of the scope is required or left out
  cases scope <;> simp only [reduceCtorEq, or_false, or_true, if_true, if_false] at h <;>
    repeat' first
      | exact typeName_of_required h
      | contradiction
      | rcases bind_eq_error.1 h with h | ⟨_, _, h⟩

theorem Transparent.keyed (h : e.Transparent asked) (hq : asked q) (hcaches : e.Caches q) :
    e.Keyed q := by
  obtain ⟨hgoverned, p, hcache, henabled⟩ := hcaches
  intro p' hp'
  rw [hcache] at hp'
  cases hp'
  cases hkey : CacheService.scopeMaterial q.context p.scope with
  | ok key => exact ⟨key, rfl⟩
  | error exn =>
    have hbegin : e.begin q = .ended (.error exn) := by
      simp only [begin, hgoverned, hcache, henabled, hkey, if_true]
    have hcall : Steps e.step (Asks asked) {} { calls := [(q, .ended (.error exn))] } := by
      rw [← hbegin]
      exact steps_call .refl hq
    have hsame := h _ hcall q (.error exn) List.mem_cons_self
    rw [uncached_eq hgoverned] at hsame
    have hname := typeName_of_finish hsame
    rw [typeName_of_scopeMaterial hkey] at hname
    exact absurd hname (by decide)

theorem Transparent.written (h : e.Transparent asked) (hq : e.Cached asked q) :
    ∃ document, q.value.dumps = some document := by
  cases hdumps : q.value.dumps with
  | some document => exact ⟨document, rfl⟩
  | none =>
    have hraised : Steps e.step (Asks asked) {}
        ⟨none, some 0, [some (.error (.other "TypeError"))],
          [(q, .leaving (.error (.other "TypeError")))]⟩ :=
      steps_resume (steps_loading hq) 0 false rfl (by rw [resume, hdumps]; rfl)
    have hended : Steps e.step (Asks asked) {}
        ⟨none, none, [some (.error (.other "TypeError"))],
          [(q, .ended (.error (.other "TypeError")))]⟩ := steps_resume hraised 0 false rfl rfl
    have hsame := h _ hended q _ List.mem_cons_self
    rw [uncached_eq hq.caches.1] at hsame
    exact absurd (typeName_of_finish hsame) (by decide)

theorem Transparent.kept (h : e.Transparent asked) (hq : e.Cached asked q) : e.Kept q := by
  obtain ⟨document, hdumps⟩ := h.written hq
  refine ⟨document, hdumps, ?_⟩
  by_cases hsize : e.maximumValueBytes < e.size document
  · exact .inr (.inl hsize)
  · obtain ⟨w, hw, -, hcalls, hentry⟩ := exists_settled (steps_loading hq) rfl rfl hdumps
    have hcall := steps_call hw hq.asked
    rw [begin_eq hq, hcalls] at hcall
    -- the second call finds what the first has stored
    have hhit := steps_resume hcall 1 false rfl (by
      rw [resume, hentry (Nat.not_lt.1 hsize)]
      rfl)
    have hsame := h _ hhit q _ (List.mem_cons_of_mem _ List.mem_cons_self)
    rw [uncached_eq hq.caches.1, sameResult_hit hdumps] at hsame
    rcases hsame with hplain | hmany
    · exact .inl hplain
    · exact .inr (.inr hmany)

theorem Transparent.agree (h : e.Transparent asked) (hq : e.Cached asked q)
    (hq' : e.Cached asked q') : e.Agree q'.rows q.rows := by
  obtain ⟨document, hdumps⟩ := h.written hq'
  -- the call for `q` waits for the call for `q'`
  have hcall := steps_call (steps_loading hq') hq.asked
  rw [begin_eq hq] at hcall
  have hmiss := steps_resume hcall 1 false rfl rfl
  have hwaits := steps_resume hmiss 1 false rfl rfl
  obtain ⟨w, hw, hfutures, hcalls, -⟩ := exists_settled hwaits rfl rfl hdumps
  have hended := steps_resume hw 1 false (by rw [hcalls]; rfl) (by rw [resume, hfutures]; rfl)
  have hsame := h _ hended q _ (by
    rw [GovernedCalls.goes, hcalls]
    exact List.mem_cons_of_mem _ List.mem_cons_self)
  rw [uncached_eq hq.caches.1] at hsame
  exact sameResult_finish.1 hsame

/-- **Calls return the same rows with and without a cache**, exactly if the queries that go to it
    are clear. -/
theorem transparent_iff (e : GovernedQueryExecutor) (asked : GovernedQuery → Prop) :
    e.Transparent asked ↔ e.Clear asked := by
  constructor
  · intro h q hq hcaches
    have hcached : e.Cached asked q := ⟨hq, hcaches, h.keyed hq hcaches⟩
    exact ⟨hcached.keyed, h.kept hcached, fun q' hq' hcaches' =>
      h.agree hcached ⟨hq', hcaches', h.keyed hq' hcaches'⟩⟩
  · intro h w hw q r hr
    exact h.same ((steps_inv hw).calls q (.ended r) hr)

/-- Queries of tenants are cached, up to ten rows. -/
def caching : GovernedQueryExecutor where
  cache := some { enabled := true }
  maximumRows := 10
  size _ := 38

/-- A query for the time of an order. -/
def orderedAt : GovernedQuery where
  governed := .ok ()
  context := { tenantId := some "tenant" }
  rows := [[(.str "ordered_at", .other "2026-01-01 00:00:00")]]

/-- The first call returns a time, and the next its text. -/
theorem hit_untransparent : ¬ ∀ (e : GovernedQueryExecutor) (q : GovernedQuery),
    e.Transparent (· = q) := by
  intro hclaim
  have hclear := (transparent_iff caching (· = orderedAt)).1 (hclaim caching orderedAt)
  obtain ⟨-, ⟨document, hdumps, hkept⟩, -⟩ := hclear orderedAt rfl ⟨rfl, _, rfl, rfl⟩
  cases hdumps
  rcases hkept with hplain | hbig | hmany
  · exact absurd hplain (by decide)
  · exact absurd hbig (by decide)
  · exact absurd hmany (by decide)

end

end GovernedQueryExecutor

end TracciaRuntime
