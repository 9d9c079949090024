/-
  The parameters of a compiled query.

  * `SameShape`, `Alike`: queries that differ in values only are compiled in
    step, so that their statements are the same;
  * `parameter_discipline`: this, and that every parameter has its place, for
    both compilers.
-/
import TracciaRuntime.Proof.Placeholders

namespace TracciaRuntime.Semantics

open Py Text

/-! ## Queries of one shape -/

/-- The filters differ in their values only, and not in how many there are. -/
structure MetricFilter.SameShape (f f' : MetricFilter) : Prop where
  field : f'.field = f.field
  operator : f'.operator = f.operator
  arity : f.operator.takesTuple = true → f'.value.values.length = f.value.values.length

/-- The queries differ in filter values, the count of the period and the instant of the snapshot
    only. -/
structure SameShape (q q' : MetricQuery) : Prop where
  metrics : q'.metrics = q.metrics
  dimensions : q'.dimensions = q.dimensions
  timeRange : q'.timeRange = q.timeRange
  filters : List.Forall₂ MetricFilter.SameShape q.filters q'.filters
  orderBy : q'.orderBy = q.orderBy
  limit : q'.limit = q.limit
  timeGrain : q'.timeGrain = q.timeGrain
  relativePeriod : Option.Rel (fun p p' : RelativePeriod => p'.field = p.field ∧
    p'.unit = p.unit ∧ p'.includeCurrent = p.includeCurrent) q.relativePeriod q'.relativePeriod
  comparison : q'.comparison = q.comparison
  rollingWindows : q'.rollingWindows = q.rollingWindows
  snapshot : Option.Rel (fun s s' : SnapshotSelection => s'.field = s.field ∧ s'.mode = s.mode)
    q.snapshot q'.snapshot
  operation : q'.operation = q.operation
  cohortDimensions : q'.cohortDimensions = q.cohortDimensions
  funnelMetrics : q'.funnelMetrics = q.funnelMetrics

theorem MetricFilter.SameShape.length {f f' : MetricFilter} (h : f.SameShape f') :
    f'.value.values.length = f.value.values.length := by
  by_cases ht : f.operator.takesTuple = true
  · exact h.arity ht
  · rw [Bool.not_eq_true] at ht
    have hf := f.takes
    have hf' := f'.takes
    rw [h.operator] at hf'
    cases hn : f.operator.takesNull with
    | true => rw [hf.1 hn, hf'.1 hn]
    | false => rw [hf.2 hn ht, hf'.2 hn ht]

/-- The same clauses, with as many parameters. -/
structure Predicates.Alike (p p' : Predicates) : Prop where
  clauses : p'.clauses = p.clauses
  length : p'.parameters.length = p.parameters.length

theorem Predicates.Alike.next {p p' : Predicates} (h : p.Alike p') : p'.next = p.next := by
  rw [Predicates.next, Predicates.next, h.length]

theorem Predicates.Alike.push {p p' : Predicates} (h : p.Alike p') {cs : List Clause}
    {vs vs' : List Value} (hv : vs'.length = vs.length) : (p.push cs vs).Alike (p'.push cs vs') := by
  constructor
  · rw [Predicates.push, Predicates.push, h.clauses]
  · simp only [Predicates.push, List.length_append, h.length, hv]

theorem Predicates.Alike.filter {p p' : Predicates} (h : p.Alike p') (g : Bool) (c : Column)
    {f f' : MetricFilter} (hf : f.SameShape f') : (p.filter g c f).Alike (p'.filter g c f') := by
  unfold Predicates.filter
  rw [h.next, hf.operator, hf.length]
  exact h.push hf.length

/-- Filters of one shape, both governed or both not. -/
def SameItem (i i' : Bool × MetricFilter) : Prop := i'.1 = i.1 ∧ i.2.SameShape i'.2

theorem SameItem.refl_list {items : List (Bool × MetricFilter)} :
    List.Forall₂ SameItem items items :=
  List.forall₂_same.2 fun _ _ => ⟨rfl, rfl, rfl, fun _ => rfl⟩

theorem SameShape.resolved {layer : SemanticLayer} {q q' : MetricQuery} (h : SameShape q q')
    {metrics : List (String × MetricDefinition)} {dimensions : List (String × DimensionDefinition)}
    (hres : Resolved layer q metrics dimensions) : Resolved layer q' metrics dimensions :=
  ⟨h.metrics ▸ hres.metrics, h.dimensions ▸ hres.dimensions⟩

theorem SameShape.order {layer : SemanticLayer} {q q' : MetricQuery} (h : SameShape q q')
    {metrics : List (String × MetricDefinition)} {dimensions : List (String × DimensionDefinition)}
    {o o' : List (String × SortDirection)} (ho : layer.order q metrics dimensions = .ok o)
    (ho' : layer.order q' metrics dimensions = .ok o') : o' = o := by
  unfold SemanticLayer.order at ho ho'
  rw [h.orderBy, ho] at ho'
  cases ho'
  rfl

theorem Statement.eq_of {s s' : Statement} (h₁ : s'.dimensions = s.dimensions)
    (h₂ : s'.metrics = s.metrics) (h₃ : s'.base = s.base) (h₄ : s'.joins = s.joins)
    (h₅ : s'.clauses = s.clauses) (h₆ : s'.orderBy = s.orderBy) (h₇ : s'.limit = s.limit) :
    s' = s := by
  cases s; cases s'
  simp_all

namespace SemanticQueryCompiler
variable {layer : SemanticLayer} {model : SemanticModelDefinition}

theorem ownFilters_alike {fs fs' own own' : List MetricFilter}
    (hs : List.Forall₂ MetricFilter.SameShape fs fs')
    (h : ownFilters layer model fs = .ok own) (h' : ownFilters layer model fs' = .ok own') :
    List.Forall₂ MetricFilter.SameShape own own' := by
  induction hs generalizing own own' with
  | nil => cases h; cases h'; exact .nil
  | @cons f f' fs fs' hf _ ih =>
    simp only [ownFilters, bind_eq_ok] at h h'
    obtain ⟨x, hx, _, -, h⟩ := h
    obtain ⟨x', hx', _, -, h'⟩ := h'
    rw [hf.field, hx] at hx'
    cases hx'
    -- a filter on a governed dimension is dropped from both
    cases hfind : model.defaultFilters.find? fun g => g.field = x.2.name with
    | some g =>
      rw [hfind] at h h'
      simp only [bind_eq_ok] at h h'
      obtain ⟨_, -, h⟩ := h
      obtain ⟨_, -, h'⟩ := h'
      exact ih h h'
    | none =>
      rw [hfind] at h h'
      simp only [bind_eq_ok] at h h'
      obtain ⟨kept, hk, h⟩ := h
      obtain ⟨kept', hk', h'⟩ := h'
      cases h; cases h'
      exact .cons ⟨rfl, hf.operator, hf.arity⟩ (ih hk hk')

theorem effectiveFilters_alike {fs fs' : List MetricFilter} {items items' : List (Bool × MetricFilter)}
    (hs : List.Forall₂ MetricFilter.SameShape fs fs')
    (h : effectiveFilters layer model fs = .ok items)
    (h' : effectiveFilters layer model fs' = .ok items') : List.Forall₂ SameItem items items' := by
  simp only [effectiveFilters, bind_eq_ok] at h h'
  obtain ⟨own, ho, h⟩ := h
  obtain ⟨own', ho', h'⟩ := h'
  cases h; cases h'
  refine List.rel_append SameItem.refl_list ?_
  rw [List.forall₂_map_left_iff, List.forall₂_map_right_iff]
  exact (ownFilters_alike hs ho ho').imp fun _ _ hf => ⟨rfl, hf⟩

theorem addFilter_alike {p p' t t' : Predicates} {i i' : Bool × MetricFilter} (hi : SameItem i i')
    (hp : p.Alike p') (h : addFilter layer model p i = .ok t)
    (h' : addFilter layer model p' i' = .ok t') : t.Alike t' := by
  simp only [addFilter, bind_eq_ok] at h h'
  obtain ⟨x, hx, _, -, h⟩ := h
  obtain ⟨x', hx', _, -, h'⟩ := h'
  rw [hi.2.field, hx] at hx'
  cases hx'
  cases h; cases h'
  rw [hi.1]
  exact hp.filter _ _ hi.2

theorem addFreshness_alike {p p' t t' : Predicates} (hp : p.Alike p')
    (h : addFreshness layer model p = .ok t) (h' : addFreshness layer model p' = .ok t') :
    t.Alike t' := by
  unfold addFreshness at h h'
  cases hf : model.freshness with
  | none =>
    rw [hf] at h h'
    cases h; cases h'
    exact hp
  | some policy =>
    rw [hf] at h h'
    simp only [bind_eq_ok] at h h'
    obtain ⟨x, hx, _, -, h⟩ := h
    obtain ⟨x', hx', _, -, h'⟩ := h'
    rw [hx] at hx'
    cases hx'
    cases h; cases h'
    rw [hp.next]
    exact hp.push rfl

/-- **The one-model compiler writes the same statement** for queries of one shape. -/
theorem statement_eq {access : Access} {query query' : MetricQuery} {c c' : CompiledSemanticQuery}
    (hs : SameShape query query') (h : compile access layer query = .ok c)
    (h' : compile access layer query' = .ok c') : c'.statement = c.statement := by
  obtain ⟨metrics, dimensions, model, p, hres, -, hnames, hmem, h⟩ := compile_ok h
  obtain ⟨metrics', dimensions', model', p', hres', -, hnames', hmem', h'⟩ := compile_ok h'
  obtain ⟨rfl, rfl⟩ := (hs.resolved hres).unique hres'
  rw [hnames] at hnames'
  obtain ⟨hname, -⟩ := List.cons.inj hnames'
  cases SemanticLayer.model_unique hmem hmem' hname
  obtain ⟨items, p₁, hi, h₁, h₂⟩ := h.predicates
  obtain ⟨items', p₁', hi', h₁', h₂'⟩ := h'.predicates
  have hp₁ : p₁.Alike p₁' := foldlM_lockstep (effectiveFilters_alike hs.filters hi hi')
    ⟨rfl, rfl⟩ (fun _ _ _ _ _ _ hi hp => addFilter_alike hi hp) h₁ h₁'
  have hp := addFreshness_alike hp₁ h₂ h₂'
  refine Statement.eq_of ?_ ?_ ?_ ?_ ?_ ?_ ?_
  · rw [h.dimension_items, h'.dimension_items]
  · rw [h.metric_items, h'.metric_items]
  · rw [h.source, h'.source]
  · rw [h.no_joins, h'.no_joins]
  · rw [h.clauses, h'.clauses, hp.clauses]
  · exact hs.order h.orderBy h'.orderBy
  · rw [h.limit, h'.limit, hs.limit]

end SemanticQueryCompiler

namespace ProductionSemanticQueryCompiler
variable {layer : SemanticLayer} {names : List String} {query query' : MetricQuery}
  {p p' t t' : Predicates}

theorem effectiveFilters_alike (models : List SemanticModelDefinition)
    (hs : SameShape query query') :
    List.Forall₂ SameItem (effectiveFilters models query) (effectiveFilters models query') := by
  refine List.rel_append SameItem.refl_list ?_
  rw [List.forall₂_map_left_iff, List.forall₂_map_right_iff]
  exact hs.filters.imp fun _ _ hf => ⟨rfl, hf⟩

theorem addFilter_alike {s s' u u' : List (String × String) × Predicates}
    {i i' : Bool × MetricFilter} (hi : SameItem i i') (hp : s'.1 = s.1 ∧ s.2.Alike s'.2)
    (h : addFilter layer names s i = .ok u) (h' : addFilter layer names s' i' = .ok u') :
    u'.1 = u.1 ∧ u.2.Alike u'.2 := by
  simp only [addFilter, bind_eq_ok] at h h'
  obtain ⟨x, hx, h⟩ := h
  obtain ⟨x', hx', h'⟩ := h'
  rw [hi.2.field, hx] at hx'
  cases hx'
  by_cases hseen : (x.1, x.2.name) ∈ s.1
  · rw [if_pos hseen] at h
    rw [if_pos (hp.1 ▸ hseen)] at h'
    cases h; cases h'
    exact hp
  · rw [if_neg hseen, bind_eq_ok] at h
    rw [if_neg (hp.1 ▸ hseen), bind_eq_ok] at h'
    obtain ⟨col, hcol, h⟩ := h
    obtain ⟨col', hcol', h'⟩ := h'
    rw [hcol] at hcol'
    cases hcol'
    cases h; cases h'
    exact ⟨by rw [hp.1], hi.1 ▸ hp.2.filter _ _ hi.2⟩

theorem addRelativePeriod_alike (hs : SameShape query query') (hp : p.Alike p')
    (h : addRelativePeriod layer names query p = .ok t)
    (h' : addRelativePeriod layer names query' p' = .ok t') : t.Alike t' := by
  have hrel := hs.relativePeriod
  unfold addRelativePeriod at h h'
  cases hq : query.relativePeriod with
  | none =>
    rw [hq] at hrel h
    generalize query'.relativePeriod = o at hrel h'
    cases hrel
    cases h; cases h'
    exact hp
  | some period =>
    rw [hq] at hrel h
    generalize query'.relativePeriod = o at hrel h'
    cases hrel with
    | some hrel =>
      obtain ⟨hfield, hunit, hcurrent⟩ := hrel
      simp only [hfield, hunit, hcurrent, hp.next, bind_eq_ok] at h h'
      obtain ⟨x, hx, col, hcol, h⟩ := h
      obtain ⟨x', hx', col', hcol', h'⟩ := h'
      rw [hx] at hx'
      cases hx'
      rw [hcol] at hcol'
      cases hcol'
      cases h; cases h'
      exact hp.push rfl

theorem addFreshness_alike {n : String} (hp : p.Alike p')
    (h : addFreshness layer names p n = .ok t) (h' : addFreshness layer names p' n = .ok t') :
    t.Alike t' := by
  simp only [addFreshness, bind_eq_ok] at h h'
  obtain ⟨m, hm, h⟩ := h
  obtain ⟨m', hm', h'⟩ := h'
  rw [hm] at hm'
  cases hm'
  cases hf : m.freshness with
  | none =>
    rw [hf] at h h'
    cases h; cases h'
    exact hp
  | some policy =>
    rw [hf] at h h'
    simp only [bind_eq_ok, hp.next] at h h'
    obtain ⟨x, hx, a, ha, h⟩ := h
    obtain ⟨x', hx', a', ha', h'⟩ := h'
    rw [hx] at hx'
    cases hx'
    rw [ha] at ha'
    cases ha'
    cases h; cases h'
    exact hp.push rfl

theorem addSnapshot_alike (hs : SameShape query query') (hp : p.Alike p')
    (h : addSnapshot layer names query p = .ok t)
    (h' : addSnapshot layer names query' p' = .ok t') : t.Alike t' := by
  have hrel := hs.snapshot
  unfold addSnapshot at h h'
  cases hq : query.snapshot with
  | none =>
    rw [hq] at hrel h
    generalize query'.snapshot = o at hrel h'
    cases hrel
    cases h; cases h'
    exact hp
  | some snapshot =>
    rw [hq] at hrel h
    generalize query'.snapshot = o at hrel h'
    cases hrel with
    | some hrel =>
      obtain ⟨hfield, hmode⟩ := hrel
      simp only [hfield, hmode, hp.next, bind_eq_ok] at h h'
      obtain ⟨x, hx, col, hcol, h⟩ := h
      obtain ⟨x', hx', col', hcol', h'⟩ := h'
      rw [hx] at hx'
      cases hx'
      rw [hcol] at hcol'
      cases hcol'
      cases hm : snapshot.mode with
      | latest =>
        rw [hm] at h h'
        simp only [bind_eq_ok] at h h'
        obtain ⟨m, hm, h⟩ := h
        obtain ⟨m', hm', h'⟩ := h'
        rw [hm] at hm'
        cases hm'
        cases h; cases h'
        exact hp.push rfl
      | asOf =>
        rw [hm] at h h'
        cases h; cases h'
        exact hp.push rfl
      | sameDtd =>
        rw [hm] at h
        cases h

/-- Both queries have an instant, or neither. -/
theorem asOf?_alike (hs : SameShape query query') : (asOf? query').isSome = (asOf? query).isSome := by
  have hrel := hs.snapshot
  unfold asOf?
  generalize query.snapshot = o, query'.snapshot = o' at hrel
  cases hrel with
  | none => rfl
  | some hrel =>
    simp only [hrel.2]
    split <;> rfl

theorem addValidity_alike {n : String} (hs : SameShape query query') (hp : p.Alike p')
    (h : addValidity layer names query p n = .ok t)
    (h' : addValidity layer names query' p' n = .ok t') : t.Alike t' := by
  have hinstant := asOf?_alike hs
  rw [addValidity, bind_eq_ok] at h h'
  obtain ⟨m, hm, h⟩ := h
  obtain ⟨m', hm', h'⟩ := h'
  rw [hm] at hm'
  cases hm'
  dsimp only at h h'
  split at h
  · rename_i hno
    rw [if_pos hno] at h'
    cases h; cases h'
    exact hp
  · rename_i hno
    rw [if_neg hno] at h'
    simp only [bind_eq_ok] at h h'
    obtain ⟨x, hx, y, hy, a, ha, h⟩ := h
    obtain ⟨x', hx', y', hy', a', ha', h'⟩ := h'
    rw [hx] at hx'
    cases hx'
    rw [hy] at hy'
    cases hy'
    rw [ha] at ha'
    cases ha'
    cases h; cases h'
    have hnumber : (asOf? query').map (fun _ => p'.next) = (asOf? query).map fun _ => p.next := by
      rw [hp.next]
      cases hi : asOf? query <;> cases hi' : asOf? query' <;> simp_all
    rw [hnumber]
    refine hp.push ?_
    cases hi : asOf? query <;> cases hi' : asOf? query' <;> simp_all

/-- The WHERE clauses of queries of one shape. -/
theorem predicates_alike {models : List SemanticModelDefinition} (hs : SameShape query query')
    (h : predicates layer names models query = .ok p)
    (h' : predicates layer names models query' = .ok p') : p.Alike p' := by
  simp only [predicates, bind_eq_ok] at h h'
  obtain ⟨s, hf, p₁, h₁, p₂, h₂, p₃, h₃, h₄⟩ := h
  obtain ⟨s', hf', p₁', h₁', p₂', h₂', p₃', h₃', h₄'⟩ := h'
  have names_same : List.Forall₂ Eq names names := List.forall₂_same.2 fun _ _ => rfl
  have a₀ := foldlM_lockstep (I := fun s s' => s'.1 = s.1 ∧ s.2.Alike s'.2)
    (effectiveFilters_alike models hs) ⟨rfl, rfl, rfl⟩
    (fun _ _ _ _ _ _ hi hp => addFilter_alike hi hp) hf hf'
  have a₁ := addRelativePeriod_alike hs a₀.2 h₁ h₁'
  have a₂ := foldlM_lockstep (I := Predicates.Alike) names_same a₁
    (fun _ _ _ _ _ _ hn hp h h' => by subst hn; exact addFreshness_alike hp h h') h₂ h₂'
  have a₃ := addSnapshot_alike hs a₂ h₃ h₃'
  exact foldlM_lockstep (I := Predicates.Alike) names_same a₃
    (fun _ _ _ _ _ _ hn hp h h' => by subst hn; exact addValidity_alike hs hp h h') h₄ h₄'

theorem advanced_alike (hs : SameShape query query') : advanced query' = advanced query := by
  have hperiod : query'.relativePeriod.isSome = query.relativePeriod.isSome := by
    have hrel := hs.relativePeriod
    generalize query.relativePeriod = o, query'.relativePeriod = o' at hrel
    cases hrel <;> rfl
  have hsnapshot : query'.snapshot.isSome = query.snapshot.isSome := by
    have hrel := hs.snapshot
    generalize query.snapshot = o, query'.snapshot = o' at hrel
    cases hrel <;> rfl
  simp only [advanced, hs.timeGrain, hperiod, hs.comparison, hs.rollingWindows, hsnapshot,
    hs.operation, hs.cohortDimensions, hs.funnelMetrics]

theorem plain_alike (hs : SameShape query query') : Plain layer query' ↔ Plain layer query := by
  constructor
  · rintro ⟨metrics, dimensions, model, hres, hrest⟩
    refine ⟨metrics, dimensions, model, ⟨?_, ?_⟩, advanced_alike hs ▸ hrest⟩
    · exact hs.metrics ▸ hres.metrics
    · exact hs.dimensions ▸ hres.dimensions
  · rintro ⟨metrics, dimensions, model, hres, hrest⟩
    exact ⟨metrics, dimensions, model, hs.resolved hres, (advanced_alike hs).symm ▸ hrest⟩

/-- **The production compiler writes the same statement** for queries of one shape. -/
theorem statement_eq {access : Access} {c c' : CompiledSemanticQuery}
    (hs : SameShape query query') (h : compile access layer query = .ok c)
    (h' : compile access layer query' = .ok c') : c'.statement = c.statement := by
  obtain ⟨metrics, dimensions, hres, -, -, h⟩ := compile_cases h
  obtain ⟨metrics', dimensions', hres', -, -, h'⟩ := compile_cases h'
  obtain ⟨rfl, rfl⟩ := (hs.resolved hres).unique hres'
  rcases h with ⟨hplain, h⟩ | ⟨hplain, base, joins, p, h⟩ <;>
    rcases h' with ⟨hplain', h'⟩ | ⟨hplain', base', joins', p', h'⟩
  · exact SemanticQueryCompiler.statement_eq hs h h'
  · exact absurd ((plain_alike hs).2 hplain) hplain'
  · exact absurd ((plain_alike hs).1 hplain') hplain
  obtain ⟨hname, -⟩ := List.cons.inj (h.fact.symm.trans h'.fact)
  cases SemanticLayer.model_unique h.base_mem h'.base_mem hname
  cases h.path.symm.trans h'.path
  obtain ⟨models, hmodels, hp⟩ := h.predicates
  obtain ⟨models', hmodels', hp'⟩ := h'.predicates
  cases hmodels.symm.trans hmodels'
  refine Statement.eq_of ?_ ?_ ?_ ?_ ?_ ?_ ?_
  · rw [h.dimension_items, h'.dimension_items, hs.timeGrain]
  · rw [h.metric_items, h'.metric_items, hs.operation]
  · rw [h.source, h'.source]
  · have hj := mapM_eq_ok.2 h.join_items
    rw [mapM_eq_ok.2 h'.join_items] at hj
    exact Except.ok.inj hj
  · rw [h.clauses, h'.clauses, (predicates_alike hs hp hp').clauses]
  · exact hs.order h.orderBy h'.orderBy
  · rw [h.limit, h'.limit, hs.limit]

end ProductionSemanticQueryCompiler

/-! ## Discipline -/

/-- **The parameters of a compiled query are in order**: its placeholders are those of its clauses,
    they are numbered from one to the number of parameters, and those of a clause are bound to the
    values of what it stands for. -/
structure Disciplined (alnum : Char → Bool) (S : Setting) (c : CompiledSemanticQuery) : Prop where
  placed : marks (c.sql alnum).toList =
    c.statement.clauses.flatMap fun cl => marks (cl.sql alnum).toList
  numbered : ∀ d, d ∈ marks (c.sql alnum).toList ↔
    ∃ n, 1 ≤ n ∧ n ≤ c.parameters.length ∧ d = numeral n
  own : ∀ cl ∈ c.statement.clauses, marks (cl.sql alnum).toList = cl.parameters.map numeral ∧
    ∃ vs, Stands S cl vs ∧ cl.bound c.parameters = vs.map some

theorem Predicates.Sound.disciplined {alnum : Char → Bool} {S : Setting}
    {c : CompiledSemanticQuery} {p : Predicates} (h : p.Sound S) (hq : c.statement.Quiet)
    (hc : c.statement.clauses = p.clauses) (hp : c.parameters = p.parameters) :
    Disciplined alnum S c := by
  have hclause : ∀ cl ∈ c.statement.clauses, marks (cl.sql alnum).toList = cl.parameters.map numeral :=
    fun cl hcl => Clause.marks_sql (hq.clauses cl hcl).1 (hq.clauses cl hcl).2
  have hsql : marks (c.sql alnum).toList =
      c.statement.clauses.flatMap fun cl => cl.parameters.map numeral := Statement.marks_sql hq
  refine ⟨?_, fun d => ?_, fun cl hcl => ⟨hclause cl hcl, ?_⟩⟩
  · rw [hsql]
    exact List.flatMap_congr fun cl hcl => (hclause cl hcl).symm
  · rw [hsql, hc, hp, List.mem_flatMap]
    constructor
    · rintro ⟨cl, hcl, hd⟩
      obtain ⟨n, hn, rfl⟩ := List.mem_map.1 hd
      obtain ⟨h₁, h₂⟩ := (h.numbers n).1 ⟨cl, hcl, hn⟩
      exact ⟨n, h₁, h₂, rfl⟩
    · rintro ⟨n, h₁, h₂, rfl⟩
      obtain ⟨cl, hcl, hn⟩ := (h.numbers n).2 ⟨h₁, h₂⟩
      exact ⟨cl, hcl, List.mem_map_of_mem hn⟩
  · rw [hp]
    exact h.stands cl (hc ▸ hcl)

/-- The parameters of the one-model compiler. -/
def SemanticQueryCompiler.Orderly (alnum : Char → Bool) (layer : SemanticLayer)
    (query : MetricQuery) (c : CompiledSemanticQuery) : Prop :=
  ∃ model ∈ layer.definition.models, ∃ filters,
    effectiveFilters layer model query.filters = .ok filters ∧
    Disciplined alnum (setting layer query model filters) c

/-- The parameters of the production compiler. -/
def ProductionSemanticQueryCompiler.Orderly (alnum : Char → Bool) (layer : SemanticLayer)
    (query : MetricQuery) (c : CompiledSemanticQuery) : Prop :=
  Plain layer query ∧ SemanticQueryCompiler.Orderly alnum layer query c ∨
  ∃ names models, names.mapM layer.model = .ok models ∧
    Disciplined alnum (setting layer names models query) c

theorem SemanticQueryCompiler.orderly {access : Access} {layer : SemanticLayer}
    {query : MetricQuery} {c : CompiledSemanticQuery} (alnum : Char → Bool) (hl : layer.Quiet)
    (h : compile access layer query = .ok c) : Orderly alnum layer query c := by
  obtain ⟨metrics, dimensions, model, p, hres, -, hnames, hmem, h⟩ := compile_ok h
  obtain ⟨filters, p₁, hf, h₁, h₂⟩ := h.predicates
  have hsound : p₁.Sound (setting layer query model filters) := (filters_sound h₁).1
  have hp := (freshness_sound hsound h₂).1
  exact ⟨model, hmem, filters, hf, hp.disciplined (quiet hl hres h hp) h.clauses h.parameters⟩

theorem ProductionSemanticQueryCompiler.orderly {access : Access} {layer : SemanticLayer}
    {query : MetricQuery} {c : CompiledSemanticQuery} (alnum : Char → Bool) (hl : layer.Quiet)
    (h : compile access layer query = .ok c) : Orderly alnum layer query c := by
  obtain ⟨metrics, dimensions, hres, -, -, ⟨hplain, h⟩ | ⟨-, base, joins, p, h⟩⟩ := compile_cases h
  · exact Or.inl ⟨hplain, SemanticQueryCompiler.orderly alnum hl h⟩
  · obtain ⟨models, hmodels, hp⟩ := h.predicates
    have hsound := (predicates_where hmodels hp).sound
    exact Or.inr ⟨_, models, hmodels,
      hsound.disciplined (h.quiet hl hres hsound) h.clauses h.parameters⟩

/-- **Parameter discipline** of both compilers: the values of a query are in its parameters and
    not in its text, and each placeholder stands where its parameter belongs. -/
theorem parameter_discipline (alnum : Char → Bool) (access : Access) (layer : SemanticLayer)
    (hquiet : layer.Quiet) (query : MetricQuery) (c : CompiledSemanticQuery) :
    (SemanticQueryCompiler.compile access layer query = .ok c →
      SemanticQueryCompiler.Orderly alnum layer query c ∧
      ∀ query' c', SameShape query query' →
        SemanticQueryCompiler.compile access layer query' = .ok c' → c'.sql alnum = c.sql alnum) ∧
    (ProductionSemanticQueryCompiler.compile access layer query = .ok c →
      ProductionSemanticQueryCompiler.Orderly alnum layer query c ∧
      ∀ query' c', SameShape query query' →
        ProductionSemanticQueryCompiler.compile access layer query' = .ok c' →
        c'.sql alnum = c.sql alnum) := by
  constructor
  · intro h
    refine ⟨SemanticQueryCompiler.orderly alnum hquiet h, fun query' c' hs h' => ?_⟩
    rw [CompiledSemanticQuery.sql, SemanticQueryCompiler.statement_eq hs h h']
    rfl
  · intro h
    refine ⟨ProductionSemanticQueryCompiler.orderly alnum hquiet h, fun query' c' hs h' => ?_⟩
    rw [CompiledSemanticQuery.sql, ProductionSemanticQueryCompiler.statement_eq hs h h']
    rfl

namespace Sample

/-- The sales with at least this margin. -/
def marginOver (n : Int) : MetricFilter :=
  { field := "margin", operator := .gt, value := .scalar (.int n), valid := rfl }

end Sample

/-- Two bounds for the margin of the weekly revenue. -/
theorem discipline_margins :
    ∃ c c', ProductionSemanticQueryCompiler.compile Sample.access Sample.layer
        (Sample.weekly [Sample.marginOver 50]) = .ok c ∧
      ProductionSemanticQueryCompiler.compile Sample.access Sample.layer
        (Sample.weekly [Sample.marginOver 60]) = .ok c' ∧
      ProductionSemanticQueryCompiler.Orderly Char.isAlphanum Sample.layer
        (Sample.weekly [Sample.marginOver 50]) c ∧
      c.parameters ≠ c'.parameters ∧ c'.sql Char.isAlphanum = c.sql Char.isAlphanum := by
  have hrun : (ProductionSemanticQueryCompiler.compile Sample.access Sample.layer
      (Sample.weekly [Sample.marginOver 50])).map (·.parameters) =
        .ok [.bool true, .int 50] := by decide +kernel
  have hrun' : (ProductionSemanticQueryCompiler.compile Sample.access Sample.layer
      (Sample.weekly [Sample.marginOver 60])).map (·.parameters) =
        .ok [.bool true, .int 60] := by decide +kernel
  obtain ⟨c, hc, hp⟩ := map_eq_ok.1 hrun
  obtain ⟨c', hc', hp'⟩ := map_eq_ok.1 hrun'
  have hquiet : Sample.layer.Quiet := by
    unfold SemanticLayer.Quiet
    decide +kernel
  have hs : SameShape (Sample.weekly [Sample.marginOver 50]) (Sample.weekly [Sample.marginOver 60]) :=
    ⟨rfl, rfl, rfl, .cons ⟨rfl, rfl, fun _ => rfl⟩ .nil, rfl, rfl, rfl, .none, rfl, rfl, .none, rfl,
      rfl, rfl⟩
  obtain ⟨horder, hsame⟩ :=
    (parameter_discipline Char.isAlphanum Sample.access Sample.layer hquiet _ c).2 hc
  exact ⟨c, c', hc, hc', horder, by rw [hp, hp']; decide, hsame _ _ hs hc'⟩

end TracciaRuntime.Semantics
