/-
  The errors of the semantic compilers.

  * `Undeclared`: the error of a failed lookup in a table;
  * `compile_declared`: the one-model compiler raises no such error;
  * `predicates_undeclared`: the WHERE clause of the production path does exactly if a filter, the
    relative period or the snapshot names a dimension of a model that is not selected (`Outside`);
  * `compile_errors_iff`: both compilers raise declared errors only, exactly if the query does not
    come to that (`Strays`).
-/
import TracciaRuntime.Py.Raises
import TracciaRuntime.Proof.Joins

namespace TracciaRuntime.Semantics

open Py

/-- A `KeyError`: neither a `ConfigurationError` nor a `NotFoundError`. -/
def Undeclared (e : SemanticError) : Prop := ∃ k, e = .keyError k

@[simp] theorem not_undeclared_configuration {text : String} : ¬Undeclared (.configuration text) :=
  nofun

@[simp] theorem not_undeclared_notFound {text : String} : ¬Undeclared (.notFound text) :=
  nofun

@[simp] theorem undeclared_keyError {k : String} : Undeclared (.keyError k) := ⟨k, rfl⟩

/-! ## The layer -/

namespace SemanticLayer
variable {layer : SemanticLayer} {name : String}

theorem metric_declared : ¬Raises Undeclared (layer.metric name) := by
  unfold metric
  split <;> simp

theorem dimension_declared : ¬Raises Undeclared (layer.dimension name) := by
  unfold dimension
  split <;> simp

theorem model_declared (h : ∃ m ∈ layer.definition.models, m.name = name) :
    ¬Raises Undeclared (layer.model name) := by
  obtain ⟨m, hm, hn⟩ := h
  rw [model_eq_ok.2 ⟨hm, hn⟩]
  exact not_raises_ok

theorem validateAccess_declared {kind : String} {sensitivity : Sensitivity} {tags : List String}
    {access : Access} :
    ¬Raises Undeclared (validateAccess kind name sensitivity tags access) :=
  not_raises_bind (by simp) fun _ _ => by simp

theorem validateGovernance_declared {kind : String} {certification : Certification}
    {sensitivity : Sensitivity} {tags : List String} {access : Access} :
    ¬Raises Undeclared (validateGovernance kind name certification sensitivity tags access) :=
  not_raises_bind (by simp) fun _ _ => validateAccess_declared

theorem validateSelection_declared {metrics dimensions : List String} {access : Access} :
    ¬Raises Undeclared (layer.validateSelection metrics dimensions access) := by
  unfold validateSelection
  refine not_raises_bind (not_raises_mapM fun _ _ => metric_declared) fun ms _ => ?_
  refine not_raises_bind (not_raises_mapM fun _ _ => dimension_declared) fun ds _ => ?_
  refine not_raises_bind (not_raises_forM fun _ _ => ?_) fun _ _ => ?_
  · exact not_raises_bind (by simp) fun _ _ => validateGovernance_declared
  refine not_raises_bind (not_raises_forM fun _ _ => validateAccess_declared) fun _ _ => ?_
  refine not_raises_bind (not_raises_forM fun _ _ => validateGovernance_declared) fun _ _ => ?_
  exact not_raises_pure

theorem validateQuery_declared {query : MetricQuery} {access : Access} :
    ¬Raises Undeclared (layer.validateQuery query access) := by
  unfold validateQuery
  refine not_raises_bind validateSelection_declared fun _ _ => not_raises_forM fun _ _ => ?_
  exact not_raises_bind (not_raises_mapM fun _ _ => dimension_declared) fun _ _ => by simp

theorem selectedName_declared : ¬Raises Undeclared (layer.selectedName name) := by
  unfold selectedName
  split
  · exact not_raises_ok
  · rintro ⟨e, he, h⟩
    cases hm : layer.metric name with
    | error e' =>
      rw [hm] at h
      cases h
      exact metric_declared ⟨_, he, hm⟩
    | ok x =>
      rw [hm] at h
      cases h

theorem order_declared {query : MetricQuery} {metrics : List (String × MetricDefinition)}
    {dimensions : List (String × DimensionDefinition)} :
    ¬Raises Undeclared (layer.order query metrics dimensions) := by
  unfold order
  refine not_raises_mapM fun _ _ => not_raises_bind selectedName_declared fun _ _ => ?_
  exact not_raises_bind (by simp) fun _ _ => not_raises_pure

/-- In an accepted query, every filter names a dimension. -/
theorem validateQuery_filters {query : MetricQuery} {access : Access}
    (h : layer.validateQuery query access = .ok ()) :
    ∀ f ∈ query.filters, ∃ d, layer.dimension f.field = .ok d := by
  unfold validateQuery at h
  obtain ⟨resolved, hresolved, h⟩ := bind_eq_ok.1 h
  unfold validateSelection at hresolved
  obtain ⟨metrics, hmetrics, hresolved⟩ := bind_eq_ok.1 hresolved
  obtain ⟨dimensions, -, hresolved⟩ := bind_eq_ok.1 hresolved
  simp only [bind_eq_ok] at hresolved
  obtain ⟨-, -, -, -, -, -, hresolved⟩ := hresolved
  cases hresolved
  obtain ⟨n, ns, hquery⟩ := List.exists_cons_of_ne_nil query.nonempty
  have hall := mapM_eq_ok.1 hmetrics
  rw [hquery] at hall
  obtain ⟨x, xs, hx, -, rfl⟩ := List.forall₂_cons_left_iff.1 hall
  obtain ⟨m, hm, hname, -⟩ := metric_mem hx
  have hsel : m ∈ layer.modelsNamed ((x :: xs).map (·.1) ++ dimensions.map (·.1)) := by
    simp [modelsNamed, hm, hname]
  obtain ⟨filtered, hfiltered, -⟩ := bind_eq_ok.1 (forM_eq_ok.1 h m hsel)
  intro f hf
  obtain ⟨d, -, hd⟩ := exists_of_mem_left (mapM_eq_ok.1 hfiltered) hf
  exact ⟨d, hd⟩

end SemanticLayer

/-! ## The one-model compiler -/

namespace SemanticQueryCompiler
variable {access : Access} {layer : SemanticLayer} {query : MetricQuery}
  {model : SemanticModelDefinition}

theorem ownFilters_declared {filters : List MetricFilter} :
    ¬Raises Undeclared (ownFilters layer model filters) := by
  induction filters with
  | nil => exact not_raises_pure
  | cons f fs ih =>
    unfold ownFilters
    refine not_raises_bind SemanticLayer.dimension_declared fun _ _ => ?_
    refine not_raises_bind (by simp) fun _ _ => ?_
    split
    · exact not_raises_bind (by simp) fun _ _ => ih
    · exact not_raises_bind ih fun _ _ => not_raises_pure

theorem addFilter_declared {p : Predicates} {item : Bool × MetricFilter} :
    ¬Raises Undeclared (addFilter layer model p item) := by
  unfold addFilter
  refine not_raises_bind SemanticLayer.dimension_declared fun _ _ => ?_
  exact not_raises_bind (by simp) fun _ _ => not_raises_pure

theorem addFreshness_declared {p : Predicates} :
    ¬Raises Undeclared (addFreshness layer model p) := by
  unfold addFreshness
  split
  · exact not_raises_pure
  · refine not_raises_bind SemanticLayer.dimension_declared fun _ _ => ?_
    exact not_raises_bind (by simp) fun _ _ => not_raises_pure

theorem compileModel_declared {metrics : List (String × MetricDefinition)}
    {dimensions : List (String × DimensionDefinition)} :
    ¬Raises Undeclared (compileModel layer query metrics dimensions model) := by
  unfold compileModel effectiveFilters
  refine not_raises_bind (not_raises_bind ownFilters_declared fun _ _ => not_raises_pure)
    fun _ _ => ?_
  refine not_raises_bind (not_raises_foldlM fun _ _ _ => addFilter_declared) fun _ _ => ?_
  refine not_raises_bind addFreshness_declared fun _ _ => ?_
  exact not_raises_bind SemanticLayer.order_declared fun _ _ => not_raises_pure

/-- **The one-model compiler raises declared errors only.** -/
theorem compile_declared : ¬Raises Undeclared (compile access layer query) := by
  unfold compile
  refine not_raises_bind SemanticLayer.validateQuery_declared fun _ _ => ?_
  refine not_raises_bind (not_raises_mapM fun _ _ => SemanticLayer.metric_declared)
    fun metrics hm => ?_
  refine not_raises_bind (not_raises_mapM fun _ _ => SemanticLayer.dimension_declared)
    fun dimensions hd => ?_
  have hres : Resolved layer query metrics dimensions := ⟨mapM_eq_ok.1 hm, mapM_eq_ok.1 hd⟩
  split
  · rename_i name hname
    refine not_raises_bind (by simp) fun _ _ => ?_
    refine not_raises_bind (SemanticLayer.model_declared ?_) fun _ _ => compileModel_declared
    exact hres.exists_model (hname ▸ List.mem_cons_self)
  · exact fun h => not_undeclared_configuration (raises_error.1 h)

end SemanticQueryCompiler

/-! ## The WHERE clause of the production path -/

namespace ProductionSemanticQueryCompiler
variable {access : Access} {layer : SemanticLayer} {query : MetricQuery} {names : List String}
  {name field : String} {p : Predicates}

/-- The field is a dimension of a model with one of these names. -/
def Inside (layer : SemanticLayer) (names : List String) (field : String) : Prop :=
  ∃ d, layer.dimension field = .ok d ∧ d.1 ∈ names

/-- The field is a dimension of another model. -/
def Outside (layer : SemanticLayer) (names : List String) (field : String) : Prop :=
  ∃ d, layer.dimension field = .ok d ∧ d.1 ∉ names

theorem Inside.not_outside (h : Inside layer names field) : ¬Outside layer names field := by
  obtain ⟨d, hd, hn⟩ := h
  rintro ⟨d', hd', hn'⟩
  rw [hd] at hd'
  cases hd'
  exact hn' hn

theorem columnOf_undeclared {d : String × DimensionDefinition} :
    Raises Undeclared (columnOf names d) ↔ d.1 ∉ names := by
  unfold columnOf aliasOf
  rw [raises_bind]
  split_ifs with h <;> simp [h]

theorem column_ok {d : String × DimensionDefinition} (h : d.1 ∈ names) :
    columnOf names d = .ok (column names d) :=
  columnOf_eq_ok.2 ⟨h, rfl⟩

/-- The column of a field: it fails exactly for a field outside. -/
theorem field_undeclared {α : Type} {f : String × DimensionDefinition → Column → Except SemanticError α}
    (hf : ∀ d, d.1 ∈ names → ¬Raises Undeclared (f d (column names d))) :
    Raises Undeclared (layer.dimension field >>= fun d => columnOf names d >>= f d) ↔
      Outside layer names field := by
  rw [raises_bind]
  constructor
  · rintro (h | ⟨d, hd, h⟩)
    · exact absurd h SemanticLayer.dimension_declared
    · refine ⟨d, hd, fun hn => ?_⟩
      rw [column_ok hn] at h
      exact hf d hn h
  · rintro ⟨d, hd, hn⟩
    exact .inr ⟨d, hd, raises_bind.2 (.inl (columnOf_undeclared.2 hn))⟩

section
variable {items : List (Bool × MetricFilter)} {x : List (String × String) × Predicates}

theorem addFilter_inside {item : Bool × MetricFilter} (h : Inside layer names item.2.field) :
    ∃ x', addFilter layer names x item = .ok x' := by
  obtain ⟨d, hd, hn⟩ := h
  unfold addFilter
  rw [hd]
  by_cases hseen : (d.1, d.2.name) ∈ x.1
  · exact ⟨x, if_pos hseen⟩
  · refine ⟨((d.1, d.2.name) :: x.1, x.2.filter item.1 (column names d) item.2), ?_⟩
    change (if (d.1, d.2.name) ∈ x.1 then pure x else _) = _
    rw [if_neg hseen, column_ok hn]
    rfl

theorem filters_inside (h : ∀ item ∈ items, Inside layer names item.2.field) :
    ∃ x', items.foldlM (addFilter layer names) x = .ok x' := by
  induction items generalizing x with
  | nil => exact ⟨x, rfl⟩
  | cons item items ih =>
    obtain ⟨hitem, hitems⟩ := List.forall_mem_cons.1 h
    obtain ⟨x', hx'⟩ := addFilter_inside (x := x) hitem
    rw [List.foldlM_cons, hx']
    exact ih hitems

/-- The dimensions that were filtered are those of selected models. -/
theorem addFilter_seen {item : Bool × MetricFilter} {x' : List (String × String) × Predicates}
    (hx : ∀ k ∈ x.1, k.1 ∈ names) (h : addFilter layer names x item = .ok x') :
    Inside layer names item.2.field ∧ ∀ k ∈ x'.1, k.1 ∈ names := by
  unfold addFilter at h
  obtain ⟨d, hd, h⟩ := bind_eq_ok.1 h
  split at h
  · rename_i hseen
    cases h
    exact ⟨⟨d, hd, hx _ hseen⟩, hx⟩
  · obtain ⟨c, hc, h⟩ := bind_eq_ok.1 h
    cases h
    have hn := (columnOf_eq_ok.1 hc).1
    refine ⟨⟨d, hd, hn⟩, fun k hk => ?_⟩
    rcases List.mem_cons.1 hk with rfl | hk
    · exact hn
    · exact hx k hk

theorem addFilter_undeclared {item : Bool × MetricFilter} (hx : ∀ k ∈ x.1, k.1 ∈ names) :
    Raises Undeclared (addFilter layer names x item) ↔ Outside layer names item.2.field := by
  unfold addFilter
  rw [raises_bind]
  constructor
  · rintro (h | ⟨d, hd, h⟩)
    · exact absurd h SemanticLayer.dimension_declared
    · refine ⟨d, hd, fun hn => ?_⟩
      split at h
      · exact not_raises_pure h
      · rw [column_ok hn] at h
        exact not_raises_pure h
  · rintro ⟨d, hd, hn⟩
    refine .inr ⟨d, hd, ?_⟩
    rw [if_neg fun hseen => hn (hx _ hseen)]
    exact raises_bind.2 (.inl (columnOf_undeclared.2 hn))

/-- The loop over the filters fails exactly if one of them is outside, if all are dimensions. -/
theorem filters_undeclared (hx : ∀ k ∈ x.1, k.1 ∈ names)
    (hd : ∀ item ∈ items, ∃ d, layer.dimension item.2.field = .ok d) :
    Raises Undeclared (items.foldlM (addFilter layer names) x) ↔
      ∃ item ∈ items, Outside layer names item.2.field := by
  induction items generalizing x with
  | nil => simp
  | cons item items ih =>
    obtain ⟨⟨d, hitem⟩, hitems⟩ := List.forall_mem_cons.1 hd
    rw [List.foldlM_cons, raises_bind, addFilter_undeclared hx, List.exists_mem_cons_iff]
    refine or_congr_right' fun hout => ?_
    have hin : Inside layer names item.2.field := by
      by_contra hn
      exact hout ⟨d, hitem, fun h => hn ⟨d, hitem, h⟩⟩
    obtain ⟨x', hx'⟩ := addFilter_inside (x := x) hin
    rw [← ih (addFilter_seen hx hx').2 hitems]
    constructor
    · rintro ⟨x'', hx'', h⟩
      rw [hx'] at hx''
      cases hx''
      exact h
    · exact fun h => ⟨x', hx', h⟩

end

theorem relativePeriod_undeclared :
    Raises Undeclared (addRelativePeriod layer names query p) ↔
      ∃ period, query.relativePeriod = some period ∧ Outside layer names period.field := by
  unfold addRelativePeriod
  cases query.relativePeriod with
  | none => simp
  | some period =>
    simp only [Option.some.injEq, exists_eq_left']
    exact field_undeclared fun _ _ => not_raises_pure

theorem relativePeriod_inside :
    (∃ p', addRelativePeriod layer names query p = .ok p') ↔
      ∀ period, query.relativePeriod = some period → Inside layer names period.field := by
  unfold addRelativePeriod
  cases query.relativePeriod with
  | none => exact ⟨fun _ _ h => (by cases h), fun _ => ⟨p, rfl⟩⟩
  | some period =>
    constructor
    · rintro ⟨p', h⟩ _ ⟨⟩
      obtain ⟨d, hd, h⟩ := bind_eq_ok.1 h
      obtain ⟨c, hc, -⟩ := bind_eq_ok.1 h
      exact ⟨d, hd, (columnOf_eq_ok.1 hc).1⟩
    · intro h
      obtain ⟨d, hd, hn⟩ := h period rfl
      exact ⟨_, bind_eq_ok.2 ⟨d, hd, bind_eq_ok.2 ⟨_, column_ok hn, rfl⟩⟩⟩

theorem addSnapshot_undeclared :
    Raises Undeclared (addSnapshot layer names query p) ↔
      ∃ snapshot, query.snapshot = some snapshot ∧ Outside layer names snapshot.field := by
  unfold addSnapshot
  cases hq : query.snapshot with
  | none => simp
  | some snapshot =>
    simp only [Option.some.injEq, exists_eq_left']
    rw [raises_bind]
    constructor
    · rintro (h | ⟨d, hd, h⟩)
      · exact absurd h SemanticLayer.dimension_declared
      · refine ⟨d, hd, fun hn => ?_⟩
        obtain ⟨model, d⟩ := d
        obtain ⟨m, hm, hname, -⟩ := SemanticLayer.dimension_mem hd
        rw [column_ok hn] at h
        -- the model of the dimension is declared, and the other modes name none
        cases hmode : snapshot.mode <;> rw [hmode] at h
        · exact not_raises_bind (SemanticLayer.model_declared ⟨m, hm, hname⟩)
            (fun _ _ => not_raises_pure) h
        · exact not_raises_pure h
        · exact not_undeclared_configuration (raises_error.1 h)
    · rintro ⟨d, hd, hn⟩
      exact .inr ⟨d, hd, raises_bind.2 (.inl (columnOf_undeclared.2 hn))⟩

theorem aliasOf_mem (h : name ∈ names) : aliasOf names name = .ok (tableAlias names name) :=
  aliasOf_eq_ok.2 ⟨h, rfl⟩

theorem addFreshness_ok (hn : name ∈ names) (hm : ∃ m ∈ layer.definition.models, m.name = name) :
    ∃ p', addFreshness layer names p name = .ok p' := by
  obtain ⟨m, hm, rfl⟩ := hm
  simp only [addFreshness, bind_eq_ok, SemanticLayer.model_eq_ok.2 ⟨hm, rfl⟩, Except.ok.injEq,
    exists_eq_left']
  cases hf : m.freshness with
  | none => exact ⟨p, rfl⟩
  | some freshness =>
    obtain ⟨d, hd, he⟩ := List.mem_map.1 (m.fresh freshness hf)
    dsimp only
    rw [← he, SemanticLayer.dimension_name hm hd, aliasOf_mem hn]
    exact ⟨_, rfl⟩

theorem addValidity_declared (hn : name ∈ names)
    (hm : ∃ m ∈ layer.definition.models, m.name = name) :
    ¬Raises Undeclared (addValidity layer names query p name) := by
  unfold addValidity
  refine not_raises_bind (SemanticLayer.model_declared hm) fun _ _ => ?_
  dsimp only
  split_ifs
  · exact not_raises_pure
  · refine not_raises_bind SemanticLayer.dimension_declared fun _ _ => ?_
    refine not_raises_bind SemanticLayer.dimension_declared fun _ _ => ?_
    rw [aliasOf_mem hn]
    exact not_raises_bind not_raises_ok fun _ _ => not_raises_pure

/-- **A lookup that fails**: a filter is outside, or the relative period is, or, with no such
    period or one inside, the snapshot. -/
def Strays (layer : SemanticLayer) (names : List String) (query : MetricQuery) : Prop :=
  (∃ f ∈ query.filters, Outside layer names f.field) ∨
  (∃ period, query.relativePeriod = some period ∧ Outside layer names period.field) ∨
  (∀ period, query.relativePeriod = some period → Inside layer names period.field) ∧
    ∃ snapshot, query.snapshot = some snapshot ∧ Outside layer names snapshot.field

/-- The default filters of a selected model are on its own dimensions. -/
theorem defaultFilters_inside {models : List SemanticModelDefinition}
    (hmodels : names.mapM layer.model = .ok models) {m : SemanticModelDefinition} (hm : m ∈ models)
    {f : MetricFilter} (hf : f ∈ m.defaultFilters) : Inside layer names f.field := by
  obtain ⟨hnames, hmem⟩ := mapM_model hmodels
  obtain ⟨d, hd, he⟩ := List.mem_map.1 (m.filtered.1 f hf)
  refine ⟨(m.name, d), he ▸ SemanticLayer.dimension_name (hmem m hm) hd, ?_⟩
  rw [← hnames]
  exact List.mem_map_of_mem hm

theorem predicates_undeclared {models : List SemanticModelDefinition}
    (hmodels : names.mapM layer.model = .ok models)
    (hfilters : ∀ f ∈ query.filters, ∃ d, layer.dimension f.field = .ok d) :
    Raises Undeclared (predicates layer names models query) ↔ Strays layer names query := by
  obtain ⟨hnames, hmem⟩ := mapM_model hmodels
  have hsel : ∀ n ∈ names, ∃ m ∈ layer.definition.models, m.name = n := by
    intro n hn
    rw [← hnames] at hn
    obtain ⟨m, hm, rfl⟩ := List.mem_map.1 hn
    exact ⟨m, hmem m hm, rfl⟩
  have hitems : ∀ item ∈ effectiveFilters models query,
      Inside layer names item.2.field ∨ item.2 ∈ query.filters := by
    intro item hi
    rcases List.mem_append.1 hi with hi | hi
    · obtain ⟨m, hm, hi⟩ := List.mem_flatMap.1 hi
      obtain ⟨f, hf, rfl⟩ := List.mem_map.1 hi
      exact .inl (defaultFilters_inside hmodels hm hf)
    · obtain ⟨f, hf, rfl⟩ := List.mem_map.1 hi
      exact .inr hf
  have hloop : Raises Undeclared ((effectiveFilters models query).foldlM (addFilter layer names)
      ([], {})) ↔ ∃ f ∈ query.filters, Outside layer names f.field := by
    rw [filters_undeclared (by simp) fun item hi => ?_]
    · constructor
      · rintro ⟨item, hi, hout⟩
        exact ⟨item.2, (hitems item hi).resolve_left fun h => h.not_outside hout, hout⟩
      · rintro ⟨f, hf, hout⟩
        exact ⟨(false, f), List.mem_append_right _ (List.mem_map_of_mem hf), hout⟩
    · rcases hitems item hi with ⟨d, hd, -⟩ | hf
      · exact ⟨d, hd⟩
      · exact hfilters _ hf
  unfold predicates Strays
  rw [raises_bind, hloop]
  refine or_congr_right' fun hout => ?_
  have hinside : ∀ item ∈ effectiveFilters models query, Inside layer names item.2.field := by
    intro item hi
    rcases hitems item hi with h | hf
    · exact h
    · obtain ⟨d, hd⟩ := hfilters _ hf
      by_contra hn
      exact hout ⟨item.2, hf, d, hd, fun h => hn ⟨d, hd, h⟩⟩
  obtain ⟨x, hx⟩ := filters_inside (x := ([], {})) hinside
  simp only [hx, Except.ok.injEq, exists_eq_left', raises_bind, relativePeriod_undeclared]
  refine or_congr_right ?_
  constructor
  · rintro ⟨p, hp, h | ⟨p', hp', h | ⟨p'', hp'', h⟩⟩⟩
    · refine absurd h (not_raises_foldlM fun n hn s => ?_)
      obtain ⟨s', hs'⟩ := addFreshness_ok (p := s) hn (hsel n hn)
      rw [hs']
      exact not_raises_ok
    · exact ⟨relativePeriod_inside.1 ⟨p, hp⟩, addSnapshot_undeclared.1 h⟩
    · exact absurd h (not_raises_foldlM fun n hn s => addValidity_declared hn (hsel n hn))
  · rintro ⟨hperiod, hsnapshot⟩
    obtain ⟨p, hp⟩ := relativePeriod_inside.2 hperiod
    obtain ⟨p', hp'⟩ := exists_foldlM (s := p) fun n hn s => addFreshness_ok hn (hsel n hn)
    exact ⟨p, hp, .inr ⟨p', hp', .inl (addSnapshot_undeclared.2 hsnapshot)⟩⟩

/-! ## The production compiler -/

theorem joinPath_declared {rounds : Nat} {reached remaining : List String} :
    ¬Raises Undeclared (joinPath access layer rounds reached remaining) := by
  induction rounds generalizing reached remaining with
  | zero => exact not_raises_pure
  | succ rounds ih =>
    unfold joinPath
    split
    · exact not_raises_pure
    · split
      · exact fun h => not_undeclared_configuration (raises_error.1 h)
      · refine not_raises_bind (by simp) fun _ _ => not_raises_bind ih fun _ _ => ?_
        exact not_raises_pure

theorem emitJoin_declared {j : JoinDefinition} (hl : j.leftModel ∈ names)
    (hr : j.rightModel ∈ names) (hm : ∃ m ∈ layer.definition.models, m.name = j.rightModel) :
    ¬Raises Undeclared (emitJoin layer names j) := by
  have hright : emitted names j = j.rightModel := if_pos hl
  unfold emitJoin
  rw [hright, aliasOf_mem hr]
  refine not_raises_bind (by simp) fun _ _ => ?_
  refine not_raises_bind (SemanticLayer.model_declared hm) fun _ _ => ?_
  exact not_raises_bind not_raises_ok fun _ _ => not_raises_pure

section
variable {metrics : List (String × MetricDefinition)}
  {dimensions : List (String × DimensionDefinition)}

theorem joins_declared {base : String} {joins : List JoinDefinition}
    (hres : Resolved layer query metrics dimensions) (hn : base ∈ modelNames metrics dimensions)
    (h : joinPath access layer ((modelNames metrics dimensions).filter (· ≠ base)).length [base]
      ((modelNames metrics dimensions).filter (· ≠ base)) = .ok joins) :
    ¬Raises Undeclared (joins.mapM (emitJoin layer (modelNames metrics dimensions))) := by
  refine not_raises_mapM fun j hj => ?_
  have hmem : ∀ n, n ∈ [base] ∨ n ∈ (modelNames metrics dimensions).filter (· ≠ base) →
      n ∈ modelNames metrics dimensions := by
    rintro n (h | h)
    · rw [List.mem_singleton.1 h]
      exact hn
    · exact List.mem_of_mem_filter h
  have hends := (joinPath_path (Nat.le_refl _) h).endpoints j hj
  exact emitJoin_declared (hmem _ hends.1) (hmem _ hends.2) (hres.exists_model (hmem _ hends.2))

theorem compileJoined_undeclared {models : List SemanticModelDefinition}
    (hres : Resolved layer query metrics dimensions)
    (hmodels : (modelNames metrics dimensions).mapM layer.model = .ok models)
    (hfilters : ∀ f ∈ query.filters, ∃ d, layer.dimension f.field = .ok d) :
    Raises Undeclared
      (compileJoined access layer query metrics dimensions (modelNames metrics dimensions) models) ↔
    ∃ base, (metrics.map (·.1)).dedup = [base] ∧
      (∃ joins, joinPath access layer ((modelNames metrics dimensions).filter (· ≠ base)).length
        [base] ((modelNames metrics dimensions).filter (· ≠ base)) = .ok joins) ∧
      Strays layer (modelNames metrics dimensions) query := by
  have hmetric : ∀ x ∈ metrics, x.1 ∈ modelNames metrics dimensions := fun x hx =>
    mem_modelNames.2 (.inl (List.mem_map_of_mem hx))
  have hdimension : ∀ x ∈ dimensions, x.1 ∈ modelNames metrics dimensions := fun x hx =>
    mem_modelNames.2 (.inr (List.mem_map_of_mem hx))
  rw [← predicates_undeclared hmodels hfilters]
  unfold compileJoined
  split
  · rename_i base hbase
    have hn : base ∈ modelNames metrics dimensions := by
      have hb : base ∈ (metrics.map (·.1)).dedup := hbase ▸ List.mem_cons_self
      exact mem_modelNames.2 (.inl (List.mem_dedup.1 hb))
    obtain ⟨dimensionItems, hd⟩ := exists_mapM (l := dimensions) (f := fun x => do
      let column ← columnOf (modelNames metrics dimensions) x
      pure (GroupItem.mk column (if x.2.isTime then query.timeGrain else none))) fun x hx => by
        rw [column_ok (hdimension x hx)]
        exact ⟨_, rfl⟩
    obtain ⟨metricItems, hm⟩ := exists_mapM (l := metrics) (f := fun x => do
      let a ← aliasOf (modelNames metrics dimensions) x.1
      pure (MetricItem.mk x.2 (some a) (query.operation = .contribution))) fun x hx => by
        rw [aliasOf_mem (hmetric x hx)]
        exact ⟨_, rfl⟩
    rw [raises_bind_of_not joinPath_declared]
    simp only [hd, hm, raises_ok_bind]
    constructor
    · rintro ⟨joins, hjoins, h⟩
      refine ⟨base, hbase, ⟨joins, hjoins⟩, ?_⟩
      rcases raises_bind.1 h with h | ⟨p, -, h⟩
      · exact h
      · refine absurd h (not_raises_bind (SemanticLayer.model_declared (hres.exists_model hn))
          fun _ _ => ?_)
        rw [aliasOf_mem hn]
        refine not_raises_bind not_raises_ok fun _ _ => ?_
        refine not_raises_bind (joins_declared hres hn hjoins) fun _ _ => ?_
        exact not_raises_bind SemanticLayer.order_declared fun _ _ => not_raises_pure
    · rintro ⟨base', hbase', ⟨joins, hjoins⟩, h⟩
      obtain rfl : base' = base := by simpa [hbase] using hbase'.symm
      exact ⟨joins, hjoins, raises_bind.2 (.inl h)⟩
  · rename_i hbase
    constructor
    · exact fun h => absurd (raises_error.1 h) not_undeclared_configuration
    · rintro ⟨base, hb, -⟩
      exact absurd hb (hbase base)

/-- The query comes to the WHERE clause of the production path: the checks before it pass. -/
structure Reaches (access : Access) (layer : SemanticLayer) (query : MetricQuery)
    (metrics : List (String × MetricDefinition))
    (dimensions : List (String × DimensionDefinition)) (base : String) : Prop where
  shape : validateCompilationShape query = .ok ()
  checked : layer.validateQuery query access = .ok ()
  resolved : Resolved layer query metrics dimensions
  semiAdditive : ∀ x ∈ metrics, validateSemiAdditive query dimensions x.2 = .ok ()
  joined : ¬Plain layer query
  fact : (metrics.map (·.1)).dedup = [base]
  path : ∃ joins, joinPath access layer ((modelNames metrics dimensions).filter (· ≠ base)).length
    [base] ((modelNames metrics dimensions).filter (· ≠ base)) = .ok joins

theorem validateCompilationShape_declared :
    ¬Raises Undeclared (validateCompilationShape query) := by
  unfold validateCompilationShape
  repeat' refine not_raises_bind (by simp) fun _ _ => ?_
  simp

/-- **The production compiler fails in a lookup** exactly if the query comes to the WHERE clause
    and a lookup fails there. -/
theorem compile_undeclared :
    Raises Undeclared (compile access layer query) ↔
      ∃ metrics dimensions base, Reaches access layer query metrics dimensions base ∧
        Strays layer (modelNames metrics dimensions) query := by
  unfold compile
  rw [raises_bind_of_not validateCompilationShape_declared]
  simp only [raises_bind_of_not SemanticLayer.validateQuery_declared,
    raises_bind_of_not (not_raises_mapM fun _ _ => SemanticLayer.metric_declared),
    raises_bind_of_not (not_raises_mapM fun _ _ => SemanticLayer.dimension_declared)]
  constructor
  · rintro ⟨_, hshape, _, hv, metrics, hm, dimensions, hd, h⟩
    have hres : Resolved layer query metrics dimensions := ⟨mapM_eq_ok.1 hm, mapM_eq_ok.1 hd⟩
    rcases raises_bind.1 h with h | ⟨_, hsemi, h⟩
    · exact absurd h (not_raises_forM fun _ _ => by simp [validateSemiAdditive])
    rcases raises_bind.1 h with h | ⟨models, hmodels, h⟩
    · exact absurd h (not_raises_mapM fun n hn => SemanticLayer.model_declared (hres.exists_model hn))
    split at h
    · exact absurd h SemanticQueryCompiler.compile_declared
    · rename_i hplain
      obtain ⟨base, hbase, hpath, hstrays⟩ := (compileJoined_undeclared hres hmodels
        (SemanticLayer.validateQuery_filters hv)).1 h
      exact ⟨metrics, dimensions, base, ⟨hshape, hv, hres, forM_eq_ok.1 hsemi,
        fun hp => hplain ((plain_iff hres hmodels).2 hp), hbase, hpath⟩, hstrays⟩
  · rintro ⟨metrics, dimensions, base, hr, hstrays⟩
    obtain ⟨models, hmodels⟩ := exists_mapM (l := modelNames metrics dimensions)
      (f := layer.model) fun n hn => by
        obtain ⟨m, hm, hname⟩ := hr.resolved.exists_model hn
        exact ⟨m, SemanticLayer.model_eq_ok.2 ⟨hm, hname⟩⟩
    refine ⟨(), hr.shape, (), hr.checked, metrics, mapM_eq_ok.2 hr.resolved.metrics, dimensions,
      mapM_eq_ok.2 hr.resolved.dimensions, ?_⟩
    refine raises_bind.2 (.inr ⟨(), forM_eq_ok.2 hr.semiAdditive, ?_⟩)
    refine raises_bind.2 (.inr ⟨models, hmodels, ?_⟩)
    rw [if_neg fun hp => hr.joined ((plain_iff hr.resolved hmodels).1 hp)]
    exact (compileJoined_undeclared hr.resolved hmodels
      (SemanticLayer.validateQuery_filters hr.checked)).2 ⟨base, hr.fact, hr.path, hstrays⟩

end

/-- **Both compilers raise declared errors only**, exactly if no filter, relative period or
    snapshot strays in a query that comes to the WHERE clause of the production path. -/
theorem compile_errors_iff (access access' : Access) (layer : SemanticLayer)
    (query : MetricQuery) :
    (¬Raises Undeclared (SemanticQueryCompiler.compile access' layer query) ∧
      ¬Raises Undeclared (compile access layer query)) ↔
    ¬∃ metrics dimensions base, Reaches access layer query metrics dimensions base ∧
      Strays layer (modelNames metrics dimensions) query := by
  rw [and_iff_right SemanticQueryCompiler.compile_declared, compile_undeclared]

/-- The weekly revenue of one region: a filter on a model that is not selected. -/
theorem compile_errors_not_always :
    ¬∀ (access : Access) (layer : SemanticLayer) (query : MetricQuery),
      ¬Raises Undeclared (SemanticQueryCompiler.compile access layer query) ∧
      ¬Raises Undeclared (compile access layer query) := by
  intro h
  refine (h Sample.access Sample.layer (Sample.weekly
    [{ field := "region", value := .scalar (.str "north") }])).2 ⟨.keyError "regions", by simp, ?_⟩
  decide +kernel

end ProductionSemanticQueryCompiler

end TracciaRuntime.Semantics
