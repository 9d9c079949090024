/-
  What the semantic compilers accept, and what they make of it.

  * `compile_cases`: an accepted query went through the one-model compiler or
    through the production path (`Compiled`, `Joined`);
  * `Stands`: each clause of a WHERE clause stands for a filter, a period, a
    freshness policy, a snapshot or a validity, with the parameters of its own.
-/
import TracciaRuntime.Semantics.ProductionCompiler
import TracciaRuntime.Text.Marks

namespace TracciaRuntime.Semantics

open Py

/-! ## Models and aliases -/

theorem mem_modelNames {metrics : List (String × MetricDefinition)}
    {dimensions : List (String × DimensionDefinition)} {n : String} :
    n ∈ modelNames metrics dimensions ↔ n ∈ metrics.map (·.1) ∨ n ∈ dimensions.map (·.1) := by
  simp only [modelNames, List.mem_reverse, List.mem_dedup, List.mem_append]

theorem modelNames_nodup (metrics : List (String × MetricDefinition))
    (dimensions : List (String × DimensionDefinition)) : (modelNames metrics dimensions).Nodup :=
  List.nodup_reverse.2 (List.nodup_dedup _)

theorem SemanticLayer.model_eq_ok {layer : SemanticLayer} {n : String}
    {m : SemanticModelDefinition} :
    layer.model n = .ok m ↔ m ∈ layer.definition.models ∧ m.name = n := by
  unfold SemanticLayer.model
  constructor
  · intro h
    split at h
    · rename_i m' hfind
      cases h
      exact ⟨List.mem_of_find?_eq_some hfind, by simpa using List.find?_some hfind⟩
    · cases h
  · rintro ⟨hm, hn⟩
    cases hfind : layer.definition.models.find? fun m => m.name = n with
    | none => exact absurd hn (by simpa using List.find?_eq_none.1 hfind m hm)
    | some m' =>
      have hn' : m'.name = n := by simpa using List.find?_some hfind
      rw [SemanticLayer.model_unique (List.mem_of_find?_eq_some hfind) hm (hn'.trans hn.symm)]

namespace ProductionSemanticQueryCompiler

/-- The alias of a selected model. -/
def tableAlias (names : List String) (name : String) : String := s!"m{names.idxOf name}"

/-- The column of a dimension under the alias of its model. -/
def column (names : List String) (x : String × DimensionDefinition) : Column :=
  ⟨x.1, x.2, some (tableAlias names x.1)⟩

variable {names : List String} {name : String}

/-- Selected models have different aliases. -/
theorem tableAlias_inj {m n : String} (hm : m ∈ names)
    (h : tableAlias names m = tableAlias names n) : m = n := by
  unfold tableAlias at h
  exact (List.idxOf_inj hm).1 (Text.toString_injective ((String.append_right_inj _).1 h))

theorem aliasOf_eq_ok {a : String} :
    aliasOf names name = .ok a ↔ name ∈ names ∧ a = tableAlias names name := by
  unfold aliasOf
  constructor
  · intro h
    split at h
    · rename_i hn; cases h; exact ⟨hn, rfl⟩
    · cases h
  · rintro ⟨hn, rfl⟩; rw [if_pos hn]; rfl

theorem columnOf_eq_ok {x : String × DimensionDefinition} {c : Column} :
    columnOf names x = .ok c ↔ x.1 ∈ names ∧ c = column names x := by
  simp only [columnOf, bind_eq_ok, aliasOf_eq_ok]
  constructor
  · rintro ⟨a, ⟨hn, rfl⟩, h⟩; cases h; exact ⟨hn, rfl⟩
  · rintro ⟨hn, rfl⟩; exact ⟨_, ⟨hn, rfl⟩, rfl⟩

theorem column_inj {x x' : String × DimensionDefinition} (h : column names x = column names x') :
    x = x' := by
  injection h with h₁ h₂
  exact Prod.ext h₁ h₂

end ProductionSemanticQueryCompiler

/-! ## Accepted queries -/

/-- The metrics and dimensions that a query names. -/
structure Resolved (layer : SemanticLayer) (query : MetricQuery)
    (metrics : List (String × MetricDefinition)) (dimensions : List (String × DimensionDefinition)) :
    Prop where
  metrics : List.Forall₂ (fun n x => layer.metric n = .ok x) query.metrics metrics
  dimensions : List.Forall₂ (fun n x => layer.dimension n = .ok x) query.dimensions dimensions

theorem Resolved.unique {layer : SemanticLayer} {query : MetricQuery}
    {metrics metrics' : List (String × MetricDefinition)}
    {dimensions dimensions' : List (String × DimensionDefinition)}
    (h : Resolved layer query metrics dimensions) (h' : Resolved layer query metrics' dimensions') :
    metrics' = metrics ∧ dimensions' = dimensions := by
  have hm := mapM_eq_ok.2 h.metrics
  have hd := mapM_eq_ok.2 h.dimensions
  rw [mapM_eq_ok.2 h'.metrics] at hm
  rw [mapM_eq_ok.2 h'.dimensions] at hd
  cases hm; cases hd
  exact ⟨rfl, rfl⟩

/-- A selected model is one of the layer. -/
theorem Resolved.exists_model {layer : SemanticLayer} {query : MetricQuery}
    {metrics : List (String × MetricDefinition)} {dimensions : List (String × DimensionDefinition)}
    (h : Resolved layer query metrics dimensions) {n : String}
    (hn : n ∈ modelNames metrics dimensions) : ∃ m ∈ layer.definition.models, m.name = n := by
  rcases mem_modelNames.1 hn with hn | hn
  · obtain ⟨x, hx, rfl⟩ := List.mem_map.1 hn
    obtain ⟨_, -, hres⟩ := exists_of_mem_right h.metrics hx
    obtain ⟨m, hm, he, -⟩ := SemanticLayer.metric_mem hres
    exact ⟨m, hm, he⟩
  · obtain ⟨x, hx, rfl⟩ := List.mem_map.1 hn
    obtain ⟨_, -, hres⟩ := exists_of_mem_right h.dimensions hx
    obtain ⟨m, hm, he, -⟩ := SemanticLayer.dimension_mem hres
    exact ⟨m, hm, he⟩

/-- The statement of the one-model compiler. -/
structure CompiledModel (layer : SemanticLayer) (query : MetricQuery)
    (metrics : List (String × MetricDefinition)) (dimensions : List (String × DimensionDefinition))
    (model : SemanticModelDefinition) (p : Predicates) (c : CompiledSemanticQuery) : Prop where
  predicates : ∃ filters p₁,
    SemanticQueryCompiler.effectiveFilters layer model query.filters = .ok filters ∧
    filters.foldlM (SemanticQueryCompiler.addFilter layer model) {} = .ok p₁ ∧
    SemanticQueryCompiler.addFreshness layer model p₁ = .ok p
  dimension_items : c.statement.dimensions = dimensions.map fun x => ⟨⟨x.1, x.2, none⟩, none⟩
  metric_items : c.statement.metrics = metrics.map fun x => ⟨x.2, none, false⟩
  source : c.statement.base = ⟨model.table, none⟩
  no_joins : c.statement.joins = []
  clauses : c.statement.clauses = p.clauses
  orderBy : layer.order query metrics dimensions = .ok c.statement.orderBy
  limit : c.statement.limit = query.limit
  parameters : c.parameters = p.parameters
  join_names : c.joins = []

/-- **What the one-model compiler accepts**: a query on one model. -/
theorem SemanticQueryCompiler.compile_ok {access : Access} {layer : SemanticLayer}
    {query : MetricQuery} {c : CompiledSemanticQuery} (h : compile access layer query = .ok c) :
    ∃ metrics dimensions model p, Resolved layer query metrics dimensions ∧
      layer.validateQuery query access = .ok () ∧ modelNames metrics dimensions = [model.name] ∧
      model ∈ layer.definition.models ∧
      CompiledModel layer query metrics dimensions model p c := by
  simp only [compile, bind_eq_ok] at h
  obtain ⟨_, hv, metrics, hm, dimensions, hd, h⟩ := h
  have hres : Resolved layer query metrics dimensions := ⟨mapM_eq_ok.1 hm, mapM_eq_ok.1 hd⟩
  split at h
  · rename_i modelName hnames
    simp only [compileModel, bind_eq_ok] at h
    obtain ⟨_, -, model, hmodel, filters, hf, p₁, hp₁, p, hp, orderBy, ho, h⟩ := h
    obtain ⟨hmem, rfl⟩ := SemanticLayer.model_eq_ok.1 hmodel
    cases h
    exact ⟨metrics, dimensions, model, p, hres, hv, hnames, hmem,
      ⟨filters, p₁, hf, hp₁, hp⟩, rfl, rfl, rfl, rfl, rfl, ho, rfl, rfl, rfl⟩
  · cases h

namespace ProductionSemanticQueryCompiler
variable {access : Access} {layer : SemanticLayer} {query : MetricQuery}
  {c : CompiledSemanticQuery}

/-- The statement of the production path. -/
structure Joined (access : Access) (layer : SemanticLayer) (query : MetricQuery)
    (metrics : List (String × MetricDefinition)) (dimensions : List (String × DimensionDefinition))
    (names : List String) (base : SemanticModelDefinition) (joins : List JoinDefinition)
    (p : Predicates) (c : CompiledSemanticQuery) : Prop where
  fact : (metrics.map (·.1)).dedup = [base.name]
  base_mem : base ∈ layer.definition.models
  path : joinPath access layer (names.filter (· ≠ base.name)).length [base.name]
    (names.filter (· ≠ base.name)) = .ok joins
  predicates : ∃ models, names.mapM layer.model = .ok models ∧
    predicates layer names models query = .ok p
  dimension_items : c.statement.dimensions = dimensions.map fun x =>
    ⟨column names x, if x.2.isTime then query.timeGrain else none⟩
  metric_items : c.statement.metrics = metrics.map fun x =>
    ⟨x.2, some (tableAlias names x.1), query.operation = .contribution⟩
  source : c.statement.base = ⟨base.table, some (tableAlias names base.name)⟩
  join_items : List.Forall₂ (fun j i => emitJoin layer names j = .ok i) joins c.statement.joins
  clauses : c.statement.clauses = p.clauses
  orderBy : layer.order query metrics dimensions = .ok c.statement.orderBy
  limit : c.statement.limit = query.limit
  parameters : c.parameters = p.parameters
  semantic : c.semanticModel = base.name
  selected : c.selectedModels = names
  join_names : c.joins = joins.map (·.name)

theorem compileJoined_ok {metrics : List (String × MetricDefinition)}
    {dimensions : List (String × DimensionDefinition)} {names : List String}
    {models : List SemanticModelDefinition} (hmodels : names.mapM layer.model = .ok models)
    (h : compileJoined access layer query metrics dimensions names models = .ok c) :
    ∃ base joins p, Joined access layer query metrics dimensions names base joins p c := by
  unfold compileJoined at h
  split at h
  · rename_i base hfact
    rw [bind_eq_ok] at h
    obtain ⟨joins, hpath, h⟩ := h
    rw [bind_eq_ok] at h
    obtain ⟨dimensionItems, hd, h⟩ := h
    rw [bind_eq_ok] at h
    obtain ⟨metricItems, hm, h⟩ := h
    simp only [bind_eq_ok] at h
    obtain ⟨p, hp, model, hmodel, a, ha, joinItems, hj, orderBy, ho, h⟩ := h
    cases h
    obtain ⟨hmem, rfl⟩ := SemanticLayer.model_eq_ok.1 hmodel
    obtain ⟨-, rfl⟩ := aliasOf_eq_ok.1 ha
    refine ⟨model, joins, p, hfact, hmem, hpath, ⟨models, hmodels, hp⟩, ?_, ?_, rfl,
      mapM_eq_ok.1 hj, rfl, ho, rfl, rfl, rfl, rfl, rfl⟩
    · rw [← List.forall₂_eq_eq_eq, List.forall₂_map_right_iff]
      refine List.Forall₂.flip ((mapM_eq_ok.1 hd).imp fun x g hg => ?_)
      obtain ⟨column, hc, hg⟩ := bind_eq_ok.1 hg
      obtain ⟨-, rfl⟩ := columnOf_eq_ok.1 hc
      cases hg; rfl
    · rw [← List.forall₂_eq_eq_eq, List.forall₂_map_right_iff]
      refine List.Forall₂.flip ((mapM_eq_ok.1 hm).imp fun x g hg => ?_)
      obtain ⟨a, ha, hg⟩ := bind_eq_ok.1 hg
      obtain ⟨-, rfl⟩ := aliasOf_eq_ok.1 ha
      cases hg; rfl
  · cases h

/-- The query goes to the one-model compiler. -/
def Plain (layer : SemanticLayer) (query : MetricQuery) : Prop :=
  ∃ metrics dimensions model, Resolved layer query metrics dimensions ∧
    modelNames metrics dimensions = [model.name] ∧ model ∈ layer.definition.models ∧
    advanced query = false ∧ needsProductionPath metrics [model] = false

theorem not_plain {metrics : List (String × MetricDefinition)}
    {dimensions : List (String × DimensionDefinition)} (hres : Resolved layer query metrics dimensions)
    (h : (modelNames metrics dimensions).length ≠ 1 ∨ advanced query = true) :
    ¬Plain layer query := by
  rintro ⟨metrics', dimensions', model, hres', hn, -, hadv, -⟩
  obtain ⟨rfl, rfl⟩ := hres.unique hres'
  rcases h with h | h
  · rw [hn] at h; exact h rfl
  · rw [hadv] at h; cases h

/-- The test of `compile` is whether the query goes to the one-model compiler. -/
theorem plain_iff {metrics : List (String × MetricDefinition)}
    {dimensions : List (String × DimensionDefinition)} {models : List SemanticModelDefinition}
    (hres : Resolved layer query metrics dimensions)
    (hmodels : (modelNames metrics dimensions).mapM layer.model = .ok models) :
    ((modelNames metrics dimensions).length = 1 ∧ advanced query = false ∧
      needsProductionPath metrics models = false) ↔ Plain layer query := by
  constructor
  · rintro ⟨hlen, hadv, hneeds⟩
    obtain ⟨n, hn⟩ := List.length_eq_one_iff.1 hlen
    rw [hn] at hmodels
    obtain ⟨model, hmodel, rfl⟩ := mapM_singleton hmodels
    obtain ⟨hmem, rfl⟩ := SemanticLayer.model_eq_ok.1 hmodel
    exact ⟨metrics, dimensions, model, hres, hn, hmem, hadv, hneeds⟩
  · rintro ⟨metrics', dimensions', model, hres', hn, hmem, hadv, hneeds⟩
    obtain ⟨rfl, rfl⟩ := hres.unique hres'
    rw [hn] at hmodels
    obtain ⟨model', hmodel, rfl⟩ := mapM_singleton hmodels
    obtain ⟨hmem', hname⟩ := SemanticLayer.model_eq_ok.1 hmodel
    rw [SemanticLayer.model_unique hmem' hmem hname]
    exact ⟨by rw [hn]; rfl, hadv, hneeds⟩

/-- **What the production compiler accepts.** -/
theorem compile_cases (h : compile access layer query = .ok c) :
    ∃ metrics dimensions, Resolved layer query metrics dimensions ∧
      layer.validateQuery query access = .ok () ∧
      (∀ x ∈ metrics, validateSemiAdditive query dimensions x.2 = .ok ()) ∧
      (Plain layer query ∧ SemanticQueryCompiler.compile access layer query = .ok c ∨
        ¬Plain layer query ∧ ∃ base joins p, Joined access layer query metrics dimensions
          (modelNames metrics dimensions) base joins p c) := by
  simp only [compile, bind_eq_ok] at h
  obtain ⟨_, hshape, _, hv, metrics, hm, dimensions, hd, _, hsemi, models, hmodels, h⟩ := h
  have hres : Resolved layer query metrics dimensions := ⟨mapM_eq_ok.1 hm, mapM_eq_ok.1 hd⟩
  refine ⟨metrics, dimensions, hres, hv, forM_eq_ok.1 hsemi, ?_⟩
  split at h
  · rename_i hplain
    exact Or.inl ⟨(plain_iff hres hmodels).1 hplain, h⟩
  · rename_i hplain
    exact Or.inr ⟨fun hp => hplain ((plain_iff hres hmodels).2 hp), compileJoined_ok hmodels h⟩

end ProductionSemanticQueryCompiler

/-! ## The WHERE clause -/

/-- What the WHERE clause of a query is made from: the selected models, the effective filters,
    the columns of dimensions and the late arrivals that a freshness bound grants. -/
structure Setting where
  layer : SemanticLayer
  query : MetricQuery
  names : List String
  models : List SemanticModelDefinition
  filters : List (Bool × MetricFilter)
  column : String × DimensionDefinition → Column
  late : SemanticModelDefinition → Nat

/-- What a clause stands for, and the values that belong to it. -/
inductive Stands (S : Setting) : Clause → List Value → Prop
  | filter {g f x ps} : (g, f) ∈ S.filters → S.layer.dimension f.field = .ok x → x.1 ∈ S.names →
      Stands S (.filter g (S.column x) f.operator ps) f.value.values
  | periodStart {period x n} : S.query.relativePeriod = some period →
      S.layer.dimension period.field = .ok x → x.1 ∈ S.names →
      Stands S (.periodStart (S.column x) n period.unit) [.int period.count]
  | periodEnd {period x} : S.query.relativePeriod = some period →
      S.layer.dimension period.field = .ok x → x.1 ∈ S.names →
      Stands S (.periodEnd (S.column x) period.includeCurrent) []
  | fresh {m policy x n} : m ∈ S.models → m.freshness = some policy →
      S.layer.dimension policy.field = .ok x → x.1 = m.name → x.1 ∈ S.names →
      Stands S (.fresh (S.column x) n) [.int (policy.maxAgeSeconds + S.late m)]
  | latest {snapshot x m} : S.query.snapshot = some snapshot → snapshot.mode = .latest →
      S.layer.dimension snapshot.field = .ok x → x.1 ∈ S.names →
      m ∈ S.layer.definition.models → m.name = x.1 →
      Stands S (.latest (S.column x) m.table) []
  | asOf {snapshot x n} : S.query.snapshot = some snapshot → snapshot.mode = .asOf →
      S.layer.dimension snapshot.field = .ok x → x.1 ∈ S.names →
      Stands S (.asOf (S.column x) n) [.str (snapshot.asOf.getD "")]
  | validFrom {m x n vs} : m ∈ S.models →
      S.layer.dimension (m.validFromDimension.getD "") = .ok x → x.1 = m.name → x.1 ∈ S.names →
      vs = (ProductionSemanticQueryCompiler.asOf? S.query).toList.map Value.str →
      Stands S (.validFrom (S.column x) n) vs
  | validTo {m x n vs} : m ∈ S.models →
      S.layer.dimension (m.validToDimension.getD "") = .ok x → x.1 = m.name → x.1 ∈ S.names →
      vs = (ProductionSemanticQueryCompiler.asOf? S.query).toList.map Value.str →
      Stands S (.validTo (S.column x) n) vs

/-- The column of a clause is one of a selected model. -/
theorem Stands.column_eq {S : Setting} {c : Clause} {vs : List Value} (h : Stands S c vs) :
    ∃ x, c.column = S.column x ∧ x.1 ∈ S.names := by
  cases h <;> exact ⟨_, rfl, ‹_›⟩

/-- The conjunct of a filter stands for an effective filter. -/
theorem Stands.filter_inv {S : Setting} {g : Bool} {col : Column} {o : FilterOperator}
    {ps : List Nat} {vs : List Value} (h : Stands S (.filter g col o ps) vs) :
    ∃ f x, (g, f) ∈ S.filters ∧ S.layer.dimension f.field = .ok x ∧ col = S.column x ∧
      o = f.operator ∧ vs = f.value.values := by
  generalize hc : Clause.filter g col o ps = clause at h
  cases h with
  | filter hf hx _ =>
    injection hc with h₁ h₂ h₃ h₄
    exact ⟨_, _, h₁ ▸ hf, hx, h₂, h₃, rfl⟩
  | _ => cases hc

/-- Is the clause that of a filter? -/
def Clause.isFilter : Clause → Bool
  | filter .. => true
  | _ => false

/-- The values at the numbers of a clause. -/
def Clause.bound (c : Clause) (parameters : List Value) : List (Option Value) :=
  c.parameters.map fun n => parameters[n - 1]?

namespace Predicates

/-- Every clause stands for something, and has its own parameters. -/
structure Sound (S : Setting) (p : Predicates) : Prop where
  stands : ∀ c ∈ p.clauses, ∃ vs, Stands S c vs ∧ c.bound p.parameters = vs.map some
  numbers : ∀ n, (∃ c ∈ p.clauses, n ∈ c.parameters) ↔ 1 ≤ n ∧ n ≤ p.parameters.length

theorem Sound.empty {S : Setting} : Sound S {} := by
  refine ⟨fun c hc => (List.not_mem_nil hc).elim, fun n => ⟨?_, ?_⟩⟩
  · rintro ⟨c, hc, -⟩; cases hc
  · rintro ⟨h₁, h₂⟩
    change n ≤ 0 at h₂
    omega

/-- `p'` has more clauses than `p`, but no more filters. -/
structure Adds (p p' : Predicates) : Prop where
  clauses : p.clauses <+: p'.clauses
  parameters : p.parameters <+: p'.parameters
  filters : ∀ c ∈ p'.clauses, c ∈ p.clauses ∨ c.isFilter = false

theorem Adds.refl (p : Predicates) : Adds p p :=
  ⟨List.prefix_rfl, List.prefix_rfl, fun _ h => Or.inl h⟩

theorem Adds.trans {p p' p'' : Predicates} (h : Adds p p') (h' : Adds p' p'') : Adds p p'' :=
  ⟨h.clauses.trans h'.clauses, h.parameters.trans h'.parameters, fun c hc =>
    (h'.filters c hc).elim (h.filters c) Or.inr⟩

theorem Adds.push {p : Predicates} {cs : List Clause} {vs : List Value}
    (h : ∀ c ∈ cs, c.isFilter = false) : Adds p (p.push cs vs) :=
  ⟨List.prefix_append _ _, List.prefix_append _ _, fun c hc =>
    (List.mem_append.1 hc).imp id (h c)⟩

variable {S : Setting} {p : Predicates} {cs : List Clause} {vs : List Value}

/-- A longer list of parameters binds the clauses the same way. -/
theorem Sound.bound_append (h : Sound S p) {c : Clause} (hc : c ∈ p.clauses) :
    c.bound (p.parameters ++ vs) = c.bound p.parameters := by
  refine List.map_congr_left fun n hn => ?_
  obtain ⟨h₁, h₂⟩ := (h.numbers n).1 ⟨c, hc, hn⟩
  exact List.getElem?_append_left (by omega)

/-- **New clauses with new parameters of their own.** -/
theorem Sound.push (h : Sound S p)
    (hs : ∀ c ∈ cs, ∃ vs', Stands S c vs' ∧ c.bound (p.parameters ++ vs) = vs'.map some)
    (hn : ∀ n, (∃ c ∈ cs, n ∈ c.parameters) ↔ p.next ≤ n ∧ n < p.next + vs.length) :
    Sound S (p.push cs vs) := by
  constructor
  · intro c hc
    rcases List.mem_append.1 hc with hc | hc
    · obtain ⟨vs', hst, hb⟩ := h.stands c hc
      exact ⟨vs', hst, (h.bound_append hc).trans hb⟩
    · exact hs c hc
  · intro n
    have hlen : (p.push cs vs).parameters.length = p.parameters.length + vs.length :=
      List.length_append
    have hn := hn n
    have hold := h.numbers n
    simp only [next] at hn
    rw [hlen]
    constructor
    · rintro ⟨c, hc, hp⟩
      rcases List.mem_append.1 hc with hc | hc
      · have := hold.1 ⟨c, hc, hp⟩; omega
      · have := hn.1 ⟨c, hc, hp⟩; omega
    · rintro ⟨h₁, h₂⟩
      by_cases hle : n ≤ p.parameters.length
      · obtain ⟨c, hc, hp⟩ := hold.2 ⟨h₁, hle⟩
        exact ⟨c, List.mem_append_left _ hc, hp⟩
      · obtain ⟨c, hc, hp⟩ := hn.2 ⟨by omega, by omega⟩
        exact ⟨c, List.mem_append_right _ hc, hp⟩

/-- The numbers after the parameters so far are those of the new values. -/
theorem bound_range' (ps vs : List Value) :
    (List.range' (ps.length + 1) vs.length).map (fun n => (ps ++ vs)[n - 1]?) = vs.map some := by
  refine List.ext_getElem (by simp) fun i h₁ h₂ => ?_
  simp only [List.length_map, List.length_range'] at h₁
  simp only [List.getElem_map, List.getElem_range', Nat.one_mul]
  rw [show ps.length + 1 + i - 1 = ps.length + i by omega, List.getElem?_append_right (by omega)]
  simp [h₁]

theorem bound_next (ps : List Value) (v : Value) : (ps ++ [v])[ps.length + 1 - 1]? = some v := by
  simp

/-- A clause keeps its values when others are added. -/
theorem Sound.bound_adds {p' : Predicates} (h : Sound S p) (ha : Adds p p') {c : Clause}
    (hc : c ∈ p.clauses) : c.bound p'.parameters = c.bound p.parameters := by
  obtain ⟨vs, hvs⟩ := ha.parameters
  rw [← hvs]; exact h.bound_append hc

/-- A clause with one new parameter. -/
theorem Sound.push_one {c : Clause} {v : Value} (h : Sound S p) (hc : c.parameters = [p.next])
    (hs : Stands S c [v]) : Sound S (p.push [c] [v]) := by
  refine h.push (fun c' hc' => ?_) fun n => ?_
  · rw [List.mem_singleton] at hc'
    subst hc'
    refine ⟨[v], hs, ?_⟩
    simp only [Clause.bound, hc, List.map_cons, List.map_nil, next, bound_next]
  · simp only [List.mem_singleton, exists_eq_left, hc, List.length_singleton]
    omega

/-- A clause without parameters. -/
theorem Sound.push_closed {c : Clause} (h : Sound S p) (hc : c.parameters = [])
    (hs : Stands S c []) : Sound S (p.push [c] []) := by
  refine h.push (fun c' hc' => ?_) fun n => ?_
  · rw [List.mem_singleton] at hc'
    subst hc'
    exact ⟨[], hs, by simp [Clause.bound, hc]⟩
  · simp only [List.mem_singleton, exists_eq_left, hc, List.not_mem_nil, false_iff, List.length_nil]
    omega

theorem Sound.filter {g : Bool} {f : MetricFilter} {x : String × DimensionDefinition}
    (h : Sound S p) (hf : (g, f) ∈ S.filters) (hx : S.layer.dimension f.field = .ok x)
    (hn : x.1 ∈ S.names) : Sound S (p.filter g (S.column x) f) := by
  refine h.push (fun c hc => ?_) fun n => ?_
  · rw [List.mem_singleton] at hc
    subst hc
    exact ⟨_, .filter hf hx hn, bound_range' _ _⟩
  · simp only [List.mem_singleton, exists_eq_left, Clause.parameters, List.mem_range'_1]

end Predicates

/-- The freshness policy of a model has its conjunct. -/
def Fresh (S : Setting) (p : Predicates) (m : SemanticModelDefinition) (policy : FreshnessPolicy) :
    Prop :=
  ∃ x n, S.layer.dimension policy.field = .ok x ∧ x.1 = m.name ∧
    Clause.fresh (S.column x) n ∈ p.clauses ∧
    p.parameters[n - 1]? = some (.int (policy.maxAgeSeconds + S.late m))

theorem Fresh.adds {S : Setting} {p p' : Predicates} {m : SemanticModelDefinition}
    {policy : FreshnessPolicy} (h : Fresh S p m policy) (hp : p.Sound S) (ha : p.Adds p') :
    Fresh S p' m policy := by
  obtain ⟨x, n, hx, hm, hc, hv⟩ := h
  refine ⟨x, n, hx, hm, ha.clauses.subset hc, ?_⟩
  have hb := hp.bound_adds ha hc
  simp only [Clause.bound, Clause.parameters, List.map_cons, List.map_nil, List.cons.injEq,
    and_true] at hb
  exact hb.trans hv

namespace SemanticQueryCompiler
variable {layer : SemanticLayer} {query : MetricQuery} {model : SemanticModelDefinition}

/-- The one-model compiler writes columns without aliases. -/
def column (x : String × DimensionDefinition) : Column := ⟨x.1, x.2, none⟩

/-- It reads neither the relative period nor the snapshot, and grants no late arrivals. -/
def setting (layer : SemanticLayer) (query : MetricQuery) (model : SemanticModelDefinition)
    (filters : List (Bool × MetricFilter)) : Setting :=
  ⟨layer, { query with relativePeriod := none, snapshot := none }, [model.name], [model], filters,
    column, fun _ => 0⟩

/-- The filter has a conjunct with its own values. -/
def Filtered (layer : SemanticLayer) (model : SemanticModelDefinition) (p : Predicates)
    (item : Bool × MetricFilter) : Prop :=
  ∃ x ps, layer.dimension item.2.field = .ok x ∧ x.1 = model.name ∧
    Clause.filter item.1 (column x) item.2.operator ps ∈ p.clauses ∧
    ps.map (fun n => p.parameters[n - 1]?) = item.2.value.values.map some

/-- The loop over the effective filters. -/
theorem filters_sound {filters : List (Bool × MetricFilter)} {p : Predicates}
    (h : filters.foldlM (addFilter layer model) {} = .ok p) :
    p.Sound (setting layer query model filters) ∧ ∀ item ∈ filters, Filtered layer model p item := by
  refine foldlM_invariant (I := fun seen p => Predicates.Sound (setting layer query model filters) p ∧
    ∀ item ∈ seen, Filtered layer model p item)
    ⟨Predicates.Sound.empty, fun _ h => (List.not_mem_nil h).elim⟩ (fun seen p item p' hmem hI hp => ?_) h
  simp only [addFilter, bind_eq_ok, require_eq_ok] at hp
  obtain ⟨x, hx, _, hmodel, hp⟩ := hp
  cases hp
  refine ⟨hI.1.filter (S := setting layer query model filters) hmem hx
    (List.mem_singleton.2 hmodel), fun item' hitem => ?_⟩
  rcases List.mem_append.1 hitem with hitem | hitem
  · obtain ⟨x', ps, hx', hm', hc, hv⟩ := hI.2 item' hitem
    refine ⟨x', ps, hx', hm', List.mem_append_left _ hc, Eq.trans ?_ hv⟩
    exact hI.1.bound_append hc
  · rw [List.mem_singleton] at hitem
    subst hitem
    exact ⟨x, _, hx, hmodel, List.mem_append_right _ List.mem_cons_self, Predicates.bound_range' _ _⟩

/-- The freshness bound of the model. -/
theorem freshness_sound {filters : List (Bool × MetricFilter)} {p p' : Predicates}
    (hp : p.Sound (setting layer query model filters))
    (h : addFreshness layer model p = .ok p') :
    p'.Sound (setting layer query model filters) ∧ p.Adds p' ∧
      ∀ policy, model.freshness = some policy → Fresh (setting layer query model filters) p' model policy := by
  unfold addFreshness at h
  split at h
  · rename_i hf
    cases h
    exact ⟨hp, .refl p, fun policy h => by rw [hf] at h; cases h⟩
  · rename_i policy hf
    simp only [bind_eq_ok, require_eq_ok] at h
    obtain ⟨x, hx, _, hmodel, h⟩ := h
    cases h
    refine ⟨hp.push_one rfl ?_, .push (by simp [Clause.isFilter]), fun policy' h => ?_⟩
    · exact .fresh (S := setting layer query model filters) List.mem_cons_self hf hx hmodel
        (List.mem_singleton.2 hmodel)
    · rw [hf] at h; cases h
      exact ⟨x, _, hx, hmodel, List.mem_append_right _ List.mem_cons_self, Predicates.bound_next _ _⟩

end SemanticQueryCompiler

namespace ProductionSemanticQueryCompiler
variable {layer : SemanticLayer} {query : MetricQuery} {names : List String}
  {models : List SemanticModelDefinition} {p p' : Predicates}

def setting (layer : SemanticLayer) (names : List String) (models : List SemanticModelDefinition)
    (query : MetricQuery) : Setting :=
  ⟨layer, query, names, models, effectiveFilters models query, column names,
    (·.lateArrivalSeconds)⟩

/-- The conjunct is the one of the first filter on its dimension. -/
def IsFirst (S : Setting) (items : List (Bool × MetricFilter)) (c : Clause) : Prop :=
  ∃ before item after x ps, items = before ++ item :: after ∧
    S.layer.dimension item.2.field = .ok x ∧
    c = .filter item.1 (S.column x) item.2.operator ps ∧
    ps.length = item.2.value.values.length ∧
    ∀ e ∈ before, S.layer.dimension e.2.field ≠ .ok x

/-- Each filter has a conjunct on its dimension, and a dimension has one at most. -/
structure FilterLoop (S : Setting) (items : List (Bool × MetricFilter))
    (seen : List (String × String)) (p : Predicates) : Prop where
  sound : p.Sound S
  of_item : ∀ item ∈ items, ∃ x g o ps, S.layer.dimension item.2.field = .ok x ∧
    Clause.filter g (S.column x) o ps ∈ p.clauses
  of_seen : ∀ k ∈ seen, ∃ n x g o ps, S.layer.dimension n = .ok x ∧ (x.1, x.2.name) = k ∧
    Clause.filter g (S.column x) o ps ∈ p.clauses
  only : ∀ c ∈ p.clauses, ∃ n x g o ps, S.layer.dimension n = .ok x ∧
    c = .filter g (S.column x) o ps ∧ (x.1, x.2.name) ∈ seen
  first : ∀ c ∈ p.clauses, IsFirst S items c
  unique : ∀ c ∈ p.clauses, ∀ c' ∈ p.clauses, c.column = c'.column → c = c'

theorem IsFirst.append {S : Setting} {items : List (Bool × MetricFilter)} {c : Clause}
    (h : IsFirst S items c) (item : Bool × MetricFilter) : IsFirst S (items ++ [item]) c := by
  obtain ⟨before, item', after, x, ps, rfl, h⟩ := h
  exact ⟨before, item', after ++ [item], x, ps, by simp, h⟩

theorem filterLoop_step {done : List (Bool × MetricFilter)} {s s' : List (String × String) × Predicates}
    {item : Bool × MetricFilter} (hitem : item ∈ effectiveFilters models query)
    (hI : FilterLoop (setting layer names models query) done s.1 s.2)
    (h : addFilter layer names s item = .ok s') :
    FilterLoop (setting layer names models query) (done ++ [item]) s'.1 s'.2 := by
  simp only [addFilter, bind_eq_ok] at h
  obtain ⟨x, hx, h⟩ := h
  split at h
  · rename_i hseen
    cases h
    -- the dimension has been filtered: the conjunct is the one of the first filter
    refine ⟨hI.sound, fun item' hitem' => ?_, hI.of_seen, hI.only,
      fun c hc => (hI.first c hc).append item, hI.unique⟩
    rcases List.mem_append.1 hitem' with hitem' | hitem'
    · exact hI.of_item item' hitem'
    · rw [List.mem_singleton] at hitem'
      subst hitem'
      obtain ⟨n, x', g, o, ps, hx', hk, hc⟩ := hI.of_seen _ hseen
      cases SemanticLayer.dimension_unique hx' hx (congrArg Prod.snd hk)
      exact ⟨x, g, o, ps, hx, hc⟩
  · rename_i hseen
    rw [bind_eq_ok] at h
    obtain ⟨col, hcol, h⟩ := h
    obtain ⟨hname, rfl⟩ := columnOf_eq_ok.1 hcol
    cases h
    have hmem : Clause.filter item.1 (column names x) item.2.operator
        (List.range' s.2.next item.2.value.values.length) ∈
          (s.2.filter item.1 (column names x) item.2).clauses :=
      List.mem_append_right _ List.mem_cons_self
    have hnew : ∀ c ∈ s.2.clauses, c.column ≠ column names x := by
      intro c hc he
      obtain ⟨n, x', g, o, ps, hx', rfl, hk⟩ := hI.only c hc
      exact hseen (column_inj he ▸ hk)
    refine ⟨hI.sound.filter (S := setting layer names models query) hitem hx hname,
      fun item' hitem' => ?_, fun k hk => ?_, fun c hc => ?_, fun c hc => ?_, fun c hc c' hc' he => ?_⟩
    · rcases List.mem_append.1 hitem' with hitem' | hitem'
      · obtain ⟨x', g, o, ps, hx', hc⟩ := hI.of_item item' hitem'
        exact ⟨x', g, o, ps, hx', List.mem_append_left _ hc⟩
      · rw [List.mem_singleton] at hitem'
        subst hitem'
        exact ⟨x, _, _, _, hx, hmem⟩
    · rcases List.mem_cons.1 hk with rfl | hk
      · exact ⟨_, x, _, _, _, hx, rfl, hmem⟩
      · obtain ⟨n, x', g, o, ps, hx', hk', hc⟩ := hI.of_seen k hk
        exact ⟨n, x', g, o, ps, hx', hk', List.mem_append_left _ hc⟩
    · rcases List.mem_append.1 hc with hc | hc
      · obtain ⟨n, x', g, o, ps, hx', hc', hk⟩ := hI.only c hc
        exact ⟨n, x', g, o, ps, hx', hc', List.mem_cons_of_mem _ hk⟩
      · rw [List.mem_singleton] at hc
        exact ⟨_, x, _, _, _, hx, hc, List.mem_cons_self⟩
    · rcases List.mem_append.1 hc with hc | hc
      · exact (hI.first c hc).append item
      · rw [List.mem_singleton] at hc
        refine ⟨done, item, [], x, _, rfl, hx, hc, List.length_range', fun e he hex => ?_⟩
        obtain ⟨x', g, o, ps, hx', hc'⟩ := hI.of_item e he
        rw [hex] at hx'; cases hx'
        exact hnew _ hc' rfl
    · rcases List.mem_append.1 hc with hc | hc <;> rcases List.mem_append.1 hc' with hc' | hc'
      · exact hI.unique c hc c' hc' he
      · rw [List.mem_singleton] at hc'
        subst hc'
        exact absurd he (hnew c hc)
      · rw [List.mem_singleton] at hc
        subst hc
        exact absurd he.symm (hnew c' hc')
      · rw [List.mem_singleton] at hc hc'
        rw [hc, hc']

/-- The loop over the effective filters. -/
theorem filters_sound {s : List (String × String) × Predicates}
    (h : (effectiveFilters models query).foldlM (addFilter layer names) ([], {}) = .ok s) :
    FilterLoop (setting layer names models query) (effectiveFilters models query) s.1 s.2 := by
  refine foldlM_invariant (I := fun seen s =>
    FilterLoop (setting layer names models query) seen s.1 s.2) ?_
    (fun done s item s' hitem hI hs => filterLoop_step hitem hI hs) h
  constructor
  · exact .empty
  all_goals exact fun _ h => (List.not_mem_nil h).elim

theorem relativePeriod_sound (hp : p.Sound (setting layer names models query))
    (h : addRelativePeriod layer names query p = .ok p') :
    p'.Sound (setting layer names models query) ∧ p.Adds p' ∧
      ∀ period, query.relativePeriod = some period → ∃ x b, layer.dimension period.field = .ok x ∧
        Clause.periodEnd (column names x) b ∈ p'.clauses := by
  unfold addRelativePeriod at h
  split at h
  · rename_i hq
    cases h
    exact ⟨hp, .refl p, fun period h => by rw [hq] at h; cases h⟩
  · rename_i period hq
    simp only [bind_eq_ok] at h
    obtain ⟨x, hx, col, hcol, h⟩ := h
    obtain ⟨hname, rfl⟩ := columnOf_eq_ok.1 hcol
    cases h
    refine ⟨hp.push (fun c hc => ?_) fun n => ?_, .push (by simp [Clause.isFilter]),
      fun period' h => ?_⟩
    · rcases List.mem_pair.1 hc with rfl | rfl
      · refine ⟨_, .periodStart (S := setting layer names models query) hq hx hname, ?_⟩
        simp only [Clause.bound, Clause.parameters, List.map_cons, List.map_nil, Predicates.next,
          Predicates.bound_next]
      · exact ⟨_, .periodEnd (S := setting layer names models query) hq hx hname, rfl⟩
    · simp only [List.mem_cons, List.not_mem_nil, or_false, exists_eq_or_imp, exists_eq_left,
        Clause.parameters, List.length_singleton]
      omega
    · rw [hq] at h; cases h
      exact ⟨x, _, hx, List.mem_append_right _ (List.mem_cons_of_mem _ List.mem_cons_self)⟩

/-- The freshness bound of one model. -/
theorem freshness_step {name : String} {m : SemanticModelDefinition} (hm : m ∈ models)
    (hmodel : layer.model name = .ok m) (hp : p.Sound (setting layer names models query))
    (h : addFreshness layer names p name = .ok p') :
    p'.Sound (setting layer names models query) ∧ p.Adds p' ∧
      ∀ policy, m.freshness = some policy → Fresh (setting layer names models query) p' m policy := by
  simp only [addFreshness, bind_eq_ok] at h
  obtain ⟨m', hm', h⟩ := h
  rw [hmodel] at hm'; cases hm'
  obtain ⟨hlayer, rfl⟩ := SemanticLayer.model_eq_ok.1 hmodel
  split at h
  · rename_i hf
    cases h
    exact ⟨hp, .refl p, fun policy h => by rw [hf] at h; cases h⟩
  · rename_i policy hf
    simp only [bind_eq_ok] at h
    obtain ⟨x, hx, a, ha, h⟩ := h
    obtain ⟨hname, rfl⟩ := aliasOf_eq_ok.1 ha
    obtain ⟨hown, -⟩ := SemanticLayer.own_dimension hlayer (m.fresh policy hf) hx
    have hcol : (⟨m.name, x.2, some (tableAlias names m.name)⟩ : Column) = column names x := by
      rw [column, hown]
    rw [hcol] at h
    cases h
    refine ⟨hp.push_one rfl ?_, .push (by simp [Clause.isFilter]), fun policy' h => ?_⟩
    · exact .fresh (S := setting layer names models query) hm hf hx hown (hown ▸ hname)
    · rw [hf] at h; cases h
      exact ⟨x, _, hx, hown, List.mem_append_right _ List.mem_cons_self, Predicates.bound_next _ _⟩

/-- The freshness bounds of all selected models. -/
theorem freshness_sound (hmodels : names.mapM layer.model = .ok models)
    (hp : p.Sound (setting layer names models query))
    (h : names.foldlM (addFreshness layer names) p = .ok p') :
    p'.Sound (setting layer names models query) ∧ p.Adds p' ∧
      ∀ m ∈ models, ∀ policy, m.freshness = some policy →
        Fresh (setting layer names models query) p' m policy := by
  have inv := foldlM_invariant (I := fun seen p' =>
    Predicates.Sound (setting layer names models query) p' ∧ p.Adds p' ∧
      ∀ n ∈ seen, ∀ m, layer.model n = .ok m → ∀ policy, m.freshness = some policy →
        Fresh (setting layer names models query) p' m policy)
    ⟨hp, .refl p, fun _ h => (List.not_mem_nil h).elim⟩ (fun seen p₁ n p₂ hn hI hs => ?_) h
  · obtain ⟨h₁, h₂, h₃⟩ := inv
    refine ⟨h₁, h₂, fun m hm => ?_⟩
    obtain ⟨n, hn, hmodel⟩ := exists_of_mem_right (mapM_eq_ok.1 hmodels) hm
    exact h₃ n hn m hmodel
  · obtain ⟨m, hm, hmodel⟩ := exists_of_mem_left (mapM_eq_ok.1 hmodels) hn
    obtain ⟨h₁, h₂, h₃⟩ := freshness_step hm hmodel hI.1 hs
    refine ⟨h₁, hI.2.1.trans h₂, fun n' hn' m' hm' policy hf => ?_⟩
    rcases List.mem_append.1 hn' with hn' | hn'
    · exact (hI.2.2 n' hn' m' hm' policy hf).adds hI.1 h₂
    · rw [List.mem_singleton] at hn'
      subst hn'
      rw [hmodel] at hm'; cases hm'
      exact h₃ policy hf

theorem snapshot_sound (hp : p.Sound (setting layer names models query))
    (h : addSnapshot layer names query p = .ok p') :
    p'.Sound (setting layer names models query) ∧ p.Adds p' ∧
      ∀ snapshot, query.snapshot = some snapshot → ∃ x, layer.dimension snapshot.field = .ok x ∧
        ((∃ t, Clause.latest (column names x) t ∈ p'.clauses) ∨
          ∃ n, Clause.asOf (column names x) n ∈ p'.clauses) := by
  unfold addSnapshot at h
  split at h
  · rename_i hq
    cases h
    exact ⟨hp, .refl p, fun snapshot h => by rw [hq] at h; cases h⟩
  · rename_i snapshot hq
    simp only [bind_eq_ok] at h
    obtain ⟨x, hx, col, hcol, h⟩ := h
    obtain ⟨hname, rfl⟩ := columnOf_eq_ok.1 hcol
    split at h
    · rename_i hmode
      rw [bind_eq_ok] at h
      obtain ⟨m, hm, h⟩ := h
      obtain ⟨hlayer, hmodel⟩ := SemanticLayer.model_eq_ok.1 hm
      cases h
      refine ⟨hp.push_closed rfl
        (.latest (S := setting layer names models query) hq hmode hx hname hlayer hmodel),
        .push (by simp [Clause.isFilter]), fun snapshot' h => ?_⟩
      rw [hq] at h; cases h
      exact ⟨x, hx, Or.inl ⟨_, List.mem_append_right _ List.mem_cons_self⟩⟩
    · rename_i hmode
      cases h
      refine ⟨hp.push_one rfl (.asOf (S := setting layer names models query) hq hmode hx hname),
        .push (by simp [Clause.isFilter]), fun snapshot' h => ?_⟩
      rw [hq] at h; cases h
      exact ⟨x, hx, Or.inr ⟨_, List.mem_append_right _ List.mem_cons_self⟩⟩
    · cases h

/-- The validity of one slowly changing model. -/
theorem validity_step {name : String} {m : SemanticModelDefinition} (hm : m ∈ models)
    (hmodel : layer.model name = .ok m) (hp : p.Sound (setting layer names models query))
    (h : addValidity layer names query p name = .ok p') :
    p'.Sound (setting layer names models query) ∧ p.Adds p' := by
  rw [addValidity, bind_eq_ok] at h
  obtain ⟨m', hm', h⟩ := h
  rw [hmodel] at hm'; cases hm'
  obtain ⟨hlayer, rfl⟩ := SemanticLayer.model_eq_ok.1 hmodel
  dsimp only at h
  split at h
  · cases h; exact ⟨hp, .refl p⟩
  · rename_i hdated
    push Not at hdated
    simp only [bind_eq_ok] at h
    obtain ⟨x, hx, y, hy, a, ha, h⟩ := h
    obtain ⟨hname, rfl⟩ := aliasOf_eq_ok.1 ha
    obtain ⟨hownx, -⟩ := SemanticLayer.own_dimension hlayer
      (m.dated _ List.mem_cons_self hdated.1) hx
    obtain ⟨howny, -⟩ := SemanticLayer.own_dimension hlayer
      (m.dated _ (List.mem_cons_of_mem _ List.mem_cons_self) hdated.2) hy
    have hcolx : (⟨m.name, x.2, some (tableAlias names m.name)⟩ : Column) = column names x := by
      rw [column, hownx]
    have hcoly : (⟨m.name, y.2, some (tableAlias names m.name)⟩ : Column) = column names y := by
      rw [column, howny]
    rw [hcolx, hcoly] at h
    cases h
    refine ⟨hp.push (fun c hc => ?_) fun n => ?_, .push (by simp [Clause.isFilter])⟩
    · rcases List.mem_pair.1 hc with rfl | rfl
      · refine ⟨_, .validFrom (S := setting layer names models query) hm hx hownx (hownx ▸ hname) rfl, ?_⟩
        cases hi : asOf? query <;> simp [Clause.bound, Clause.parameters, Predicates.next, setting, hi]
      · refine ⟨_, .validTo (S := setting layer names models query) hm hy howny (howny ▸ hname) rfl, ?_⟩
        cases hi : asOf? query <;> simp [Clause.bound, Clause.parameters, Predicates.next, setting, hi]
    · cases hi : asOf? query with
      | none => simp [Clause.parameters]
      | some instant =>
        simp only [List.mem_cons, List.not_mem_nil, or_false, exists_eq_or_imp, exists_eq_left,
          Clause.parameters, Option.map_some, Option.toList_some, List.map_cons, List.map_nil,
          List.length_singleton, or_self]
        omega

theorem validity_sound (hmodels : names.mapM layer.model = .ok models)
    (hp : p.Sound (setting layer names models query))
    (h : names.foldlM (addValidity layer names query) p = .ok p') :
    p'.Sound (setting layer names models query) ∧ p.Adds p' := by
  refine foldlM_invariant (I := fun _ p' =>
    Predicates.Sound (setting layer names models query) p' ∧ p.Adds p')
    ⟨hp, .refl p⟩ (fun seen p₁ n p₂ hn hI hs => ?_) h
  obtain ⟨m, hm, hmodel⟩ := exists_of_mem_left (mapM_eq_ok.1 hmodels) hn
  obtain ⟨h₁, h₂⟩ := validity_step hm hmodel hI.1 hs
  exact ⟨h₁, hI.2.trans h₂⟩

/-- **The WHERE clause of the production path.** -/
structure Where (S : Setting) (p : Predicates) : Prop where
  sound : p.Sound S
  filters : ∀ item ∈ S.filters, ∃ x g o ps, S.layer.dimension item.2.field = .ok x ∧
    Clause.filter g (S.column x) o ps ∈ p.clauses
  first : ∀ c ∈ p.clauses, c.isFilter = true → IsFirst S S.filters c
  unique : ∀ c ∈ p.clauses, ∀ c' ∈ p.clauses, c.isFilter = true → c'.isFilter = true →
    c.column = c'.column → c = c'
  period : ∀ period, S.query.relativePeriod = some period → ∃ x b,
    S.layer.dimension period.field = .ok x ∧ Clause.periodEnd (S.column x) b ∈ p.clauses
  fresh : ∀ m ∈ S.models, ∀ policy, m.freshness = some policy → Fresh S p m policy
  snapshot : ∀ snapshot, S.query.snapshot = some snapshot → ∃ x,
    S.layer.dimension snapshot.field = .ok x ∧
      ((∃ t, Clause.latest (S.column x) t ∈ p.clauses) ∨
        ∃ n, Clause.asOf (S.column x) n ∈ p.clauses)

theorem predicates_where (hmodels : names.mapM layer.model = .ok models)
    (h : predicates layer names models query = .ok p) : Where (setting layer names models query) p := by
  simp only [predicates, bind_eq_ok] at h
  obtain ⟨s, hs, p₁, h₁, p₂, h₂, p₃, h₃, h₄⟩ := h
  have hf := filters_sound hs
  obtain ⟨s₁, a₁, period⟩ := relativePeriod_sound hf.sound h₁
  obtain ⟨s₂, a₂, fresh⟩ := freshness_sound hmodels s₁ h₂
  obtain ⟨s₃, a₃, snapshot⟩ := snapshot_sound s₂ h₃
  obtain ⟨s₄, a₄⟩ := validity_sound hmodels s₃ h₄
  have a₃₄ := a₃.trans a₄
  have a₂₄ := a₂.trans a₃₄
  have a₁₄ := a₁.trans a₂₄
  have old : ∀ c ∈ p.clauses, c.isFilter = true → c ∈ s.2.clauses := fun c hc hcf =>
    (a₁₄.filters c hc).resolve_right (by simp [hcf])
  refine ⟨s₄, fun item hitem => ?_, fun c hc hcf => hf.first c (old c hc hcf),
    fun c hc c' hc' hcf hcf' he => hf.unique c (old c hc hcf) c' (old c' hc' hcf') he,
    fun q hq => ?_, fun m hm policy hpolicy => (fresh m hm policy hpolicy).adds s₂ a₃₄,
    fun q hq => ?_⟩
  · obtain ⟨x, g, o, ps, hx, hc⟩ := hf.of_item item hitem
    exact ⟨x, g, o, ps, hx, a₁₄.clauses.subset hc⟩
  · obtain ⟨x, b, hx, hc⟩ := period q hq
    exact ⟨x, b, hx, a₂₄.clauses.subset hc⟩
  · obtain ⟨x, hx, ⟨t, hc⟩ | ⟨n, hc⟩⟩ := snapshot q hq
    · exact ⟨x, hx, Or.inl ⟨t, a₄.clauses.subset hc⟩⟩
    · exact ⟨x, hx, Or.inr ⟨n, a₄.clauses.subset hc⟩⟩

end ProductionSemanticQueryCompiler

/-! ## A layer to compute with -/

namespace Sample

def flightDate : DimensionDefinition :=
  { name := "flight_date", expression := "flight_date", isTime := true }

def isCurrent : DimensionDefinition := { name := "is_current", expression := "is_current" }

def margin : DimensionDefinition :=
  { name := "margin", expression := "margin", sensitivity := .restricted }

def region : DimensionDefinition := { name := "region", expression := "name" }

def carrier : DimensionDefinition := { name := "carrier", expression := "name" }

def channel : DimensionDefinition := { name := "channel", expression := "channel" }

def revenue : MetricDefinition :=
  { name := "revenue", expression := "revenue", aggregation := .sum, certification := .verified }

/-- A balance can be added up over anything but dates. -/
def balance : MetricDefinition :=
  { name := "balance", expression := "balance", aggregation := .sum, certification := .verified
    behavior := .semiAdditive, semiAdditiveDimensions := ["flight_date"] }

def current : MetricFilter := { field := "is_current", value := .scalar (.bool true) }

def historic : MetricFilter := { field := "is_current", value := .scalar (.bool false) }

def sales : SemanticModelDefinition :=
  { name := "sales", table := "analytics.sales", dimensions := [flightDate, isCurrent, margin]
    metrics := [revenue, balance], certification := .verified, defaultFilters := [current] }

def regions : SemanticModelDefinition :=
  { name := "regions", table := "analytics.regions", dimensions := [region], metrics := []
    certification := .verified }

def carriers : SemanticModelDefinition :=
  { name := "carriers", table := "analytics.carriers", dimensions := [carrier], metrics := []
    certification := .verified }

/-- A sale has many bookings. -/
def bookings : SemanticModelDefinition :=
  { name := "bookings", table := "analytics.bookings", dimensions := [channel], metrics := []
    certification := .verified }

def salesRegions : JoinDefinition :=
  { name := "sales_regions", leftModel := "sales", rightModel := "regions"
    relationship := .manyToOne, sqlOn := "m0.region_id = m1.id" }

def salesCarriers : JoinDefinition :=
  { name := "sales_carriers", leftModel := "sales", rightModel := "carriers"
    relationship := .manyToOne, sqlOn := "m0.carrier_id = m2.id" }

def bookingsSales : JoinDefinition :=
  { name := "bookings_sales", leftModel := "bookings", rightModel := "sales"
    relationship := .manyToOne, sqlOn := "m1.sale_id = m0.id" }

def definition : SemanticLayerDefinition :=
  { name := "commercial", version := "2", models := [sales, regions, carriers, bookings]
    joins := [salesRegions, salesCarriers, bookingsSales] }

def layer : SemanticLayer where
  definition := definition
  metrics := [("revenue", "sales", revenue), ("balance", "sales", balance)]
  dimensions := [("flight_date", "sales", flightDate), ("is_current", "sales", isCurrent),
    ("margin", "sales", margin), ("region", "regions", region), ("carrier", "carriers", carrier),
    ("channel", "bookings", channel)]
  indexed := by decide +kernel

def access : Access := { minimumCertification := .verified, maximumSensitivity := .internal }

/-- The revenue of each week, with these filters. -/
def weekly (filters : List MetricFilter) : MetricQuery :=
  { metrics := ["revenue"], dimensions := ["flight_date"], filters := filters
    timeGrain := some .week }

/-- The revenue by these dimensions. -/
def revenueBy (dimensions : List String) : MetricQuery :=
  { metrics := ["revenue"], dimensions := dimensions }

/-- The revenue of the sales with a high margin. -/
def profitable : MetricQuery :=
  { metrics := ["revenue"]
    filters := [{ field := "margin", operator := .gt, value := .scalar (.int 50) }] }

end Sample

end TracciaRuntime.Semantics
