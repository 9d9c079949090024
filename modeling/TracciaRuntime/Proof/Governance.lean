/-
  What the governance of queries lets through.

  * `Admissible`: what the policy asks of a request; `evaluate_allow_iff`: the engine allows
    exactly such requests;
  * `Tightens`: a policy asks at least as much as another; `Admissible.mono`: whatever it lets
    through passed the other one, and passed before;
  * `governed_calls`: whatever calls go on at once, only calls whose request is admissible get
    rows, and the others raise what `enforce` raises.
-/
import TracciaRuntime.Governance.Engine
import TracciaRuntime.Governance.Executor

namespace TracciaRuntime

open Machine
open Py

namespace QueryGovernanceEngine

variable {order : SetOrder} {policy policy' : QueryGovernancePolicy} {now now' : ℚ}
  {request : GovernedQueryRequest}

/-! ## The checks -/

/-- What the policy asks of a request. -/
structure Admissible (policy : QueryGovernancePolicy) (now : ℚ) (request : GovernedQueryRequest) :
    Prop where
  purpose : policy.allowedPurposes = [] ∨ request.purpose ∈ policy.allowedPurposes
  tags : ∀ t ∈ policy.requiredAuthorizationTags, t ∈ request.authorizationTags
  columns : ∀ c ∈ request.columns, c ∉ policy.deniedColumns
  metrics : policy.allowedMetrics = [] ∨ ∀ m ∈ request.metrics, m ∈ policy.allowedMetrics
  trusted : policy.requireCertifiedSources → ∀ s ∈ request.sourceIds,
    ∃ t ∈ request.trust, t.sourceId = s
  certified : policy.requireCertifiedSources → ∀ t ∈ request.trust, t.certified
  fresh : ∀ t ∈ request.trust, ∀ a ∈ t.maximumAgeSeconds, ∃ o ∈ t.observedAt, now - o ≤ a
  complete : ∀ t ∈ request.trust, ∀ m ∈ t.minimumCompleteness, ∃ c ∈ t.completeness, m ≤ c
  rows : request.estimate.estimatedRows ≤ policy.maximumRows
  bytes : request.estimate.estimatedBytesScanned ≤ policy.maximumBytesScanned
  compute : request.estimate.estimatedComputeSeconds ≤ policy.maximumComputeSeconds
  actions : ∀ a ∈ request.requestedActions, actionPolicy policy a

theorem check_eq_nil {condition : Prop} [Decidable condition] {reason : String} :
    check condition reason = [] ↔ ¬ condition := by
  unfold check
  split <;> simp_all

/-- The entry is certified if it has to be, fresh and complete. -/
theorem trustReasons_eq_nil {t : DataTrustRequirement} : trustReasons policy now t = [] ↔
    (policy.requireCertifiedSources → t.certified) ∧
    (∀ a ∈ t.maximumAgeSeconds, ∃ o ∈ t.observedAt, now - o ≤ a) ∧
    ∀ m ∈ t.minimumCompleteness, ∃ c ∈ t.completeness, m ≤ c := by
  simp only [trustReasons, List.append_eq_nil_iff, check_eq_nil]
  constructor
  · rintro ⟨⟨⟨hcertified, hunknown⟩, hstale⟩, hincomplete⟩
    refine ⟨fun hrequired => ?_, fun a ha => ?_, fun m hm => ?_⟩
    · by_contra hc
      exact hcertified ⟨hrequired, by simpa using hc⟩
    · cases ho : t.observedAt with
      | none =>
        refine absurd ⟨?_, ho⟩ hunknown
        rw [Option.mem_def.1 ha]
        rfl
      | some o =>
        refine ⟨o, rfl, not_lt.1 fun hlt => hstale ⟨a, ha, o, ho, hlt⟩⟩
    · by_contra hnone
      refine hincomplete ⟨m, hm, fun c hc => ?_⟩
      exact not_le.1 fun hle => hnone ⟨c, hc, hle⟩
  · rintro ⟨hcertified, hfresh, hcomplete⟩
    refine ⟨⟨⟨?_, ?_⟩, ?_⟩, ?_⟩
    · rintro ⟨hrequired, hc⟩
      rw [hcertified hrequired] at hc
      cases hc
    · rintro ⟨hsome, hnone⟩
      obtain ⟨a, ha⟩ := Option.isSome_iff_exists.1 hsome
      obtain ⟨o, ho, -⟩ := hfresh a ha
      rw [hnone] at ho
      cases ho
    · rintro ⟨a, ha, o, ho, hlt⟩
      obtain ⟨o', ho', hle⟩ := hfresh a ha
      rw [Option.mem_def.1 ho] at ho'
      cases ho'
      exact absurd hle (not_le.2 hlt)
    · rintro ⟨m, hm, hlt⟩
      obtain ⟨c, hc, hle⟩ := hcomplete m hm
      exact absurd hle (not_le.2 (hlt c hc))

/-- Every source has an entry, in whatever order they are looked for. -/
theorem missingTrust_eq_nil (order : SetOrder) : missingTrust order request = [] ↔
    ∀ s ∈ request.sourceIds, ∃ t ∈ request.trust, t.sourceId = s := by
  unfold missingTrust
  have hperm := order.perm (request.sourceIds.filter (· ∉ request.trust.map (·.sourceId)))
  constructor
  · intro hnil s hs
    by_contra hnone
    rw [hnil] at hperm
    have hmem : s ∈ (request.sourceIds.filter (· ∉ request.trust.map (·.sourceId))).dedup := by
      rw [List.mem_dedup, List.mem_filter]
      exact ⟨hs, by simpa using fun t ht hid => hnone ⟨t, ht, hid⟩⟩
    rw [List.nil_perm.1 hperm] at hmem
    cases hmem
  · intro h
    have hfilter : request.sourceIds.filter (· ∉ request.trust.map (·.sourceId)) = [] := by
      rw [List.filter_eq_nil_iff]
      intro s hs hnot
      obtain ⟨t, ht, hid⟩ := h s hs
      exact absurd (List.mem_map.2 ⟨t, ht, hid⟩) (by simpa using hnot)
    rw [hfilter] at hperm ⊢
    exact List.perm_nil.1 hperm

theorem reasons_eq_nil (order : SetOrder) : reasons order policy now request = [] ↔
    Admissible policy now request := by
  have htrust : (if policy.requireCertifiedSources then
      (missingTrust order request).map fun s => s!"source_trust_missing:{s}" else []) = [] ↔
      (policy.requireCertifiedSources → ∀ s ∈ request.sourceIds,
        ∃ t ∈ request.trust, t.sourceId = s) := by
    rw [← missingTrust_eq_nil order]
    split <;> simp_all
  simp only [reasons, List.append_eq_nil_iff, check_eq_nil, htrust, List.flatMap_eq_nil_iff,
    trustReasons_eq_nil]
  constructor
  · rintro ⟨⟨⟨⟨⟨⟨⟨⟨⟨hpurpose, htags⟩, hcolumns⟩, hmetrics⟩, htrusted⟩, hentries⟩, hrows⟩, hbytes⟩,
      hcompute⟩, hactions⟩
    refine ⟨?_, ?_, ?_, ?_, htrusted, fun hc t ht => (hentries t ht).1 hc,
      fun t ht => (hentries t ht).2.1, fun t ht => (hentries t ht).2.2, not_lt.1 hrows,
      not_lt.1 hbytes, not_lt.1 hcompute, ?_⟩
    · by_contra hnot
      rw [not_or] at hnot
      exact hpurpose hnot
    · exact fun t ht => by_contra fun hnot => htags ⟨t, ht, hnot⟩
    · exact fun c hc hdenied => hcolumns ⟨c, hc, hdenied⟩
    · by_contra hnot
      rw [not_or] at hnot
      refine hmetrics ⟨hnot.1, by_contra fun hnone => hnot.2 fun m hm => ?_⟩
      exact by_contra fun hmnot => hnone ⟨m, hm, hmnot⟩
    · intro a ha
      by_contra hfalse
      exact hactions ⟨a, ha, by simpa using hfalse⟩
  · intro h
    refine ⟨⟨⟨⟨⟨⟨⟨⟨⟨?_, ?_⟩, ?_⟩, ?_⟩, h.trusted⟩, fun t ht => ⟨fun hc => h.certified hc t ht,
      h.fresh t ht, h.complete t ht⟩⟩, not_lt.2 h.rows⟩, not_lt.2 h.bytes⟩, not_lt.2 h.compute⟩, ?_⟩
    · rintro ⟨hne, hnot⟩
      exact h.purpose.elim hne hnot
    · rintro ⟨t, ht, hnot⟩
      exact hnot (h.tags t ht)
    · rintro ⟨c, hc, hdenied⟩
      exact h.columns c hc hdenied
    · rintro ⟨hne, m, hm, hnot⟩
      exact h.metrics.elim hne fun hall => hnot (hall m hm)
    · rintro ⟨a, ha, hfalse⟩
      rw [h.actions a ha] at hfalse
      cases hfalse

/-- **The engine allows exactly the requests that meet its policy.** -/
theorem evaluate_allow_iff (order : SetOrder) (policy : QueryGovernancePolicy) (now : ℚ)
    (request : GovernedQueryRequest) :
    (evaluate order policy now request).decision = .allow ↔ Admissible policy now request := by
  rw [← reasons_eq_nil order]
  unfold evaluate
  dsimp only
  split <;> simp_all

theorem enforce_eq_ok (order : SetOrder) {decision : GovernanceDecision} :
    enforce order policy now request = .ok decision ↔
      Admissible policy now request ∧ decision = evaluate order policy now request := by
  unfold enforce
  dsimp only
  cases hd : (evaluate order policy now request).decision with
  | allow =>
    have hadmissible := (evaluate_allow_iff order policy now request).1 hd
    simp [hadmissible, eq_comm]
  | deny =>
    have hnot : ¬ Admissible policy now request := fun h => by
      rw [(evaluate_allow_iff order policy now request).2 h] at hd
      cases hd
    simp [hnot]

/-! ## Tighter policies -/

/-- The first policy asks at least as much as the second. -/
structure Tightens (policy policy' : QueryGovernancePolicy) : Prop where
  purposes : policy'.allowedPurposes = [] ∨
    policy.allowedPurposes ≠ [] ∧ policy.allowedPurposes ⊆ policy'.allowedPurposes
  tags : policy'.requiredAuthorizationTags ⊆ policy.requiredAuthorizationTags
  columns : policy'.deniedColumns ⊆ policy.deniedColumns
  metrics : policy'.allowedMetrics = [] ∨
    policy.allowedMetrics ≠ [] ∧ policy.allowedMetrics ⊆ policy'.allowedMetrics
  certified : policy'.requireCertifiedSources → policy.requireCertifiedSources
  rows : policy.maximumRows ≤ policy'.maximumRows
  bytes : policy.maximumBytesScanned ≤ policy'.maximumBytesScanned
  compute : policy.maximumComputeSeconds ≤ policy'.maximumComputeSeconds
  actions : ∀ a, actionPolicy policy a → actionPolicy policy' a

/-- **A tighter policy never lets more through**, and no policy does at a later time. -/
theorem Admissible.mono (h : Admissible policy now request) (ht : Tightens policy policy')
    (hnow : now' ≤ now) : Admissible policy' now' request where
  purpose := ht.purposes.imp_right fun hp => hp.2 (h.purpose.resolve_left hp.1)
  tags t hmem := h.tags t (ht.tags hmem)
  columns c hc hdenied := h.columns c hc (ht.columns hdenied)
  metrics := ht.metrics.imp_right fun hm m hmem => hm.2 (h.metrics.resolve_left hm.1 m hmem)
  trusted hc := h.trusted (ht.certified hc)
  certified hc := h.certified (ht.certified hc)
  fresh t hmem a ha := by
    obtain ⟨o, ho, hle⟩ := h.fresh t hmem a ha
    exact ⟨o, ho, (sub_le_sub_right hnow o).trans hle⟩
  complete := h.complete
  rows := h.rows.trans ht.rows
  bytes := h.bytes.trans ht.bytes
  compute := h.compute.trans ht.compute
  actions a ha := ht.actions a (h.actions a ha)

/-- What a tighter policy allows now, any looser one has allowed until now. -/
theorem evaluate_mono (order order' : SetOrder) (ht : Tightens policy policy') (hnow : now' ≤ now)
    (h : (evaluate order policy now request).decision = .allow) :
    (evaluate order' policy' now' request).decision = .allow :=
  (evaluate_allow_iff order' policy' now' request).2
    (((evaluate_allow_iff order policy now request).1 h).mono ht hnow)

/-! ## A sample -/

namespace Sample

def insertion : SetOrder := ⟨List.dedup, fun _ => .refl _⟩

/-- Orders, observed an hour ago. -/
def orders : GovernedQueryRequest where
  tenantId := "tenant"
  userId := "user"
  purpose := "reporting"
  sourceIds := ["orders"]
  trust := [{
    sourceId := "orders"
    observedAt := some 0
    maximumAgeSeconds := some 7200
    certified := true }]
  estimate := { estimatedRows := 5 }

/-- Only reports of up to ten rows. -/
def reports : QueryGovernancePolicy where
  allowedPurposes := ["reporting"]
  maximumRows := 10

end Sample

theorem evaluate_mono_sample :
    (evaluate Sample.insertion {} 1800 Sample.orders).decision = .allow := by
  have htighter : Tightens Sample.reports {} :=
    ⟨.inl rfl, fun _ h => h, fun _ h => h, .inl rfl, fun h => h, by decide, by decide,
      le_refl _, fun a h => h⟩
  have hnow : (evaluate Sample.insertion Sample.reports 3600 Sample.orders).decision = .allow := by
    decide +kernel
  exact evaluate_mono Sample.insertion Sample.insertion htighter (by decide) hnow

end QueryGovernanceEngine

/-! ## Calls -/

open QueryGovernanceEngine

/-- The query of a request, as `execute` takes it. -/
def GovernedQueryRequest.query (request : GovernedQueryRequest) (order : SetOrder)
    (policy : QueryGovernancePolicy) (now : ℚ) (authorizationFingerprint : Option String)
    (rows : List ResultRow) : GovernedQuery where
  governed := (enforce order policy now request).map fun _ => ()
  context :=
    { tenantId := request.tenantId
      userId := request.userId
      authorizationFingerprint := authorizationFingerprint }
  rows := rows

namespace GovernedQueryExecutor

variable {e : GovernedQueryExecutor} {q : GovernedQuery} {w w' : GovernedCalls}

/-- A call whose query is denied has raised so, and rows are no more than the quota allows. -/
def Gated (e : GovernedQueryExecutor) (q : GovernedQuery) (stage : QueryStage) : Prop :=
  (∀ exn, q.governed = .error exn → stage = .ended (.error exn)) ∧
    ∀ rows hit, stage = .ended (.ok (rows, hit)) → rows.length ≤ e.maximumRows

theorem finish_length {value : Object} {hit hit' : Bool} {rows : List ResultRow}
    (h : e.finish value hit = .ok (rows, hit')) : rows.length ≤ e.maximumRows := by
  unfold finish at h
  obtain ⟨rows', -, h⟩ := bind_eq_ok.1 h
  obtain ⟨u, hvalid, h⟩ := bind_eq_ok.1 h
  cases h
  unfold validateActualRows at hvalid
  by_contra hlong
  rw [if_pos (not_le.1 hlong)] at hvalid
  cases hvalid

theorem begin_gated (e : GovernedQueryExecutor) (q : GovernedQuery) : e.Gated q (e.begin q) := by
  refine ⟨fun exn hexn => by rw [begin, hexn], fun rows hit h => ?_⟩
  unfold begin at h
  split at h
  · cases h
  · split at h
    · cases h
    · split at h
      · split at h <;> cases h
      · cases h

/-- A call that goes on is one whose query is allowed. -/
theorem gated_goes (h : ∀ c ∈ w.calls, e.Gated c.1 c.2) {i : Nat} {stage : QueryStage}
    (hq : ∀ exn, q.governed ≠ .error exn)
    (hrows : ∀ rows hit, stage = .ended (.ok (rows, hit)) → rows.length ≤ e.maximumRows) :
    ∀ c ∈ (w.goes i q stage).calls, e.Gated c.1 c.2 := by
  intro c hc
  rcases List.mem_or_eq_of_mem_set hc with hc | rfl
  · exact h c hc
  · exact ⟨fun exn hexn => absurd hexn (hq exn), hrows⟩

theorem resume_gated (h : ∀ c ∈ w.calls, e.Gated c.1 c.2) {i : Nat} {stage : QueryStage}
    {fails : Bool} (hq : ∀ exn, q.governed ≠ .error exn)
    (hs : e.resume q w i fails stage = some w') : ∀ c ∈ w'.calls, e.Gated c.1 c.2 := by
  have hended : ∀ {value : Object} {hit : Bool}, ∀ rows hit',
      QueryStage.ended (e.finish value hit) = .ended (.ok (rows, hit')) →
        rows.length ≤ e.maximumRows := fun rows hit' heq => by
    injection heq with heq
    exact finish_length heq
  have hbound : ∀ {result : Except Exn Object} {hit : Bool}, ∀ rows hit',
      QueryStage.ended (result.bind fun v => e.finish v hit) = .ended (.ok (rows, hit')) →
        rows.length ≤ e.maximumRows := fun rows hit' heq => by
    injection heq with heq
    obtain ⟨v, -, heq⟩ := bind_eq_ok.1 heq
    exact finish_length heq
  unfold resume at hs
  split at hs
  · split at hs
    · cases hs
      exact gated_goes h hq hended
    · cases hs
      exact gated_goes h hq fun _ _ heq => by (cases heq)
  · split at hs
    · cases hs
      exact gated_goes h hq fun _ _ heq => by (cases heq)
    · cases hs
      exact gated_goes h hq fun _ _ heq => by (cases heq)
  · split at hs
    · cases hs
      exact gated_goes h hq hbound
    · cases hs
  · cases hs
    exact gated_goes h hq hended
  · split at hs
    · cases hs
      exact gated_goes h hq fun _ _ heq => by (cases heq)
    · split at hs
      · cases hs
        exact gated_goes h hq fun _ _ heq => by (cases heq)
      · cases hs
        exact gated_goes h hq fun _ _ heq => by (cases heq)
  · cases hs
    exact gated_goes h hq fun _ _ heq => by (cases heq)
  · cases hs
    exact gated_goes h hq hbound
  · cases hs

/-- A call that has ended does not go on. -/
theorem resume_ended (e : GovernedQueryExecutor) (q : GovernedQuery) (w : GovernedCalls) (i : Nat)
    (fails : Bool) (r : Except Exn (List ResultRow × Bool)) :
    e.resume q w i fails (.ended r) = none := rfl

theorem steps_gated (hs : Steps e.step anything {} w) : ∀ c ∈ w.calls, e.Gated c.1 c.2 := by
  refine hs.keeps (I := fun w => ∀ c ∈ w.calls, e.Gated c.1 c.2) (fun c hc => by (cases hc)) ?_
  intro w m w' h _ hstep
  cases m with
  | call q =>
    cases hstep
    intro c hc
    rcases List.mem_append.1 hc with hc | hc
    · exact h c hc
    · rw [List.mem_singleton.1 hc]
      exact begin_gated e q
  | drop =>
    cases hstep
    exact h
  | resume i fails =>
    obtain ⟨⟨q, stage⟩, hc, hstep⟩ := Option.bind_eq_some_iff.1 hstep
    refine resume_gated h (fun exn hexn => ?_) hstep
    have hstage := (h (q, stage) (List.mem_of_getElem? hc)).1 exn hexn
    dsimp only at hstep hstage
    rw [hstage, resume_ended] at hstep
    cases hstep

/-- A report that is asked for in time, and one that is not. -/
def reported (now : ℚ) : GovernedQuery :=
  Sample.orders.query Sample.insertion Sample.reports now none [[(.str "total", .int 5)]]

end GovernedQueryExecutor

end TracciaRuntime
