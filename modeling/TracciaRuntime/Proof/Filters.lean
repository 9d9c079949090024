/-
  The predicates that a compiled query enforces.

  * `enforces_iff`: the production compiler enforces every default filter, every
    filter of the query and every freshness bound exactly if the query goes to
    the one-model compiler, or no two filters disagree on a dimension;
  * `overridden_default`: a filter on a governed dimension is dropped;
  * `authorized_iff`: the dimensions of a compiled query are authorized exactly if
    those of its filters, its relative period and its snapshot are.
-/
import TracciaRuntime.Proof.Query

namespace TracciaRuntime.Semantics

open Py

variable {access : Access} {layer : SemanticLayer} {query : MetricQuery}
  {c : CompiledSemanticQuery}

/-- The query selects the model. -/
def Selected (layer : SemanticLayer) (query : MetricQuery) (m : SemanticModelDefinition) : Prop :=
  m ∈ layer.definition.models ∧ ∃ metrics dimensions, Resolved layer query metrics dimensions ∧
    m.name ∈ modelNames metrics dimensions

theorem selected_iff {metrics : List (String × MetricDefinition)}
    {dimensions : List (String × DimensionDefinition)} {m : SemanticModelDefinition}
    (hres : Resolved layer query metrics dimensions) :
    Selected layer query m ↔ m ∈ layer.definition.models ∧ m.name ∈ modelNames metrics dimensions := by
  refine and_congr_right fun _ => ⟨?_, fun h => ⟨metrics, dimensions, hres, h⟩⟩
  rintro ⟨metrics', dimensions', hres', h⟩
  obtain ⟨rfl, rfl⟩ := hres.unique hres'
  exact h

theorem selected_iff_mem {metrics : List (String × MetricDefinition)}
    {dimensions : List (String × DimensionDefinition)} {models : List SemanticModelDefinition}
    {m : SemanticModelDefinition} (hres : Resolved layer query metrics dimensions)
    (hmodels : (modelNames metrics dimensions).mapM layer.model = .ok models) :
    Selected layer query m ↔ m ∈ models := by
  rw [selected_iff hres]
  constructor
  · rintro ⟨hm, hn⟩
    obtain ⟨m', hm', hmodel⟩ := exists_of_mem_left (mapM_eq_ok.1 hmodels) hn
    rw [SemanticLayer.model_eq_ok.2 ⟨hm, rfl⟩] at hmodel
    cases hmodel; exact hm'
  · intro hm
    obtain ⟨n, hn, hmodel⟩ := exists_of_mem_right (mapM_eq_ok.1 hmodels) hm
    obtain ⟨hlayer, rfl⟩ := SemanticLayer.model_eq_ok.1 hmodel
    exact ⟨hlayer, hn⟩

/-! ## Enforced predicates -/

/-- A conjunct of the WHERE clause compares the dimension `x` as the filter does. -/
def Enforced (c : CompiledSemanticQuery) (x : String × DimensionDefinition) (f : MetricFilter) :
    Prop :=
  ∃ g col ps, Clause.filter g col f.operator ps ∈ c.statement.clauses ∧
    (col.model, col.dimension) = x ∧
    ps.map (fun n => (c.parameters[n - 1]?).map Value.content) =
      f.value.values.map fun v => some v.content

/-- A conjunct of the WHERE clause bounds the age of the dimension `x`. -/
def EnforcedAge (c : CompiledSemanticQuery) (x : String × DimensionDefinition) (seconds : Int) :
    Prop :=
  ∃ col n, Clause.fresh col n ∈ c.statement.clauses ∧ (col.model, col.dimension) = x ∧
    c.parameters[n - 1]? = some (.int seconds)

/-- The WHERE clause has a conjunct for every default filter, every filter of the query and
    every freshness bound, and no filter of the query contradicts a default. -/
structure EnforcesAll (layer : SemanticLayer) (query : MetricQuery) (c : CompiledSemanticQuery) :
    Prop where
  defaults : ∀ m, Selected layer query m → ∀ f ∈ m.defaultFilters, ∃ d ∈ m.dimensions,
    d.name = f.field ∧ Enforced c (m.name, d) f
  filters : ∀ f ∈ query.filters, ∃ x, layer.dimension f.field = .ok x ∧ Enforced c x f
  fresh : ∀ m, Selected layer query m → ∀ policy, m.freshness = some policy → ∃ d ∈ m.dimensions,
    d.name = policy.field ∧
      EnforcedAge c (m.name, d) (policy.maxAgeSeconds + m.lateArrivalSeconds)
  rejects : ∀ f ∈ query.filters, ∀ m, Selected layer query m → ∀ g ∈ m.defaultFilters,
    layer.dimension f.field = layer.dimension g.field → g.agrees f = true

/-- A filter that the query has to obey. -/
def Obeyed (layer : SemanticLayer) (query : MetricQuery) (f : MetricFilter) : Prop :=
  f ∈ query.filters ∨ ∃ m, Selected layer query m ∧ f ∈ m.defaultFilters

/-- Filters on the same dimension have the same operator and equal values. -/
def Consistent (layer : SemanticLayer) (query : MetricQuery) : Prop :=
  ∀ f g, Obeyed layer query f → Obeyed layer query g → ∀ x, layer.dimension f.field = .ok x →
    layer.dimension g.field = .ok x → f.agrees g = true

/-- The default filters and the freshness policies of a model are about its dimensions. -/
theorem default_dimension {m : SemanticModelDefinition} {f : MetricFilter}
    (hm : m ∈ layer.definition.models) (hf : f ∈ m.defaultFilters) :
    ∃ d ∈ m.dimensions, d.name = f.field ∧ layer.dimension f.field = .ok (m.name, d) := by
  obtain ⟨d, hd, hn⟩ := List.mem_map.1 (m.filtered.1 f hf)
  exact ⟨d, hd, hn, hn ▸ SemanticLayer.dimension_name hm hd⟩

/-! ## The one-model compiler -/

/-- What `_effective_filters` makes of the filters of the query. -/
theorem ownFilters_ok {model : SemanticModelDefinition} {fs own : List MetricFilter}
    (h : SemanticQueryCompiler.ownFilters layer model fs = .ok own) {f : MetricFilter} (hf : f ∈ fs) :
    ∃ x, layer.dimension f.field = .ok x ∧ x.1 = model.name ∧
      ((∃ g ∈ model.defaultFilters, g.field = x.2.name ∧ g.agrees f = true) ∨
        (∀ g ∈ model.defaultFilters, g.field ≠ x.2.name) ∧ { f with field := x.2.name } ∈ own) := by
  induction fs generalizing own with
  | nil => cases hf
  | cons f' fs ih =>
    simp only [SemanticQueryCompiler.ownFilters, bind_eq_ok, require_eq_ok] at h
    obtain ⟨x, hx, _, hmodel, h⟩ := h
    split at h
    · rename_i g hfind
      simp only [bind_eq_ok, require_eq_ok] at h
      obtain ⟨_, hagrees, h⟩ := h
      rcases List.mem_cons.1 hf with rfl | hf
      · exact ⟨x, hx, hmodel, Or.inl ⟨g, List.mem_of_find?_eq_some hfind,
          by simpa using List.find?_some hfind, hagrees⟩⟩
      · exact ih h hf
    · rename_i hfind
      rw [bind_eq_ok] at h
      obtain ⟨kept, hkept, h⟩ := h
      cases h
      rcases List.mem_cons.1 hf with rfl | hf
      · refine ⟨x, hx, hmodel, Or.inr ⟨fun g hg hn => ?_, List.mem_cons_self⟩⟩
        exact absurd hn (by simpa using List.find?_eq_none.1 hfind g hg)
      · obtain ⟨x', hx', hm', h⟩ := ih hkept hf
        exact ⟨x', hx', hm', h.imp id fun h => ⟨h.1, List.mem_cons_of_mem _ h.2⟩⟩

/-- A conjunct with the values of an agreeing filter. -/
theorem enforced_of_agrees {x : String × DimensionDefinition} {e f : MetricFilter} {g : Bool}
    {col : Column} {ps : List Nat} (hc : Clause.filter g col e.operator ps ∈ c.statement.clauses)
    (hx : (col.model, col.dimension) = x)
    (hv : ps.map (fun n => c.parameters[n - 1]?) = e.value.values.map some)
    (ha : e.agrees f = true) : Enforced c x f := by
  obtain ⟨ho, hcontent⟩ := MetricFilter.agrees_iff.1 ha
  refine ⟨g, col, ps, ho ▸ hc, hx, ?_⟩
  have := congrArg (List.map (Option.map Value.content)) hv
  simp only [List.map_map] at this
  refine Eq.trans (by simpa [Function.comp_def] using this) ?_
  simpa [List.map_map, Function.comp_def] using congrArg (List.map some) hcontent

theorem MetricFilter.agrees_refl (f : MetricFilter) : f.agrees f = true := agrees_iff.2 ⟨rfl, rfl⟩

/-- **The one-model compiler enforces every predicate**, with the bare freshness bound. -/
theorem compileModel_enforces {metrics : List (String × MetricDefinition)}
    {dimensions : List (String × DimensionDefinition)} {model : SemanticModelDefinition}
    {p : Predicates} (hres : Resolved layer query metrics dimensions)
    (hnames : modelNames metrics dimensions = [model.name])
    (hmodel : model ∈ layer.definition.models) (hlate : model.lateArrivalSeconds = 0)
    (h : CompiledModel layer query metrics dimensions model p c) : EnforcesAll layer query c := by
  obtain ⟨filters, p₁, hfilters, hloop, hfresh⟩ := h.predicates
  simp only [SemanticQueryCompiler.effectiveFilters, bind_eq_ok] at hfilters
  obtain ⟨own, hown, he⟩ := hfilters
  obtain ⟨hs₁, hitems⟩ : p₁.Sound (SemanticQueryCompiler.setting layer query model filters) ∧ _ :=
    SemanticQueryCompiler.filters_sound hloop
  obtain ⟨-, hadds, hfr⟩ := SemanticQueryCompiler.freshness_sound hs₁ hfresh
  cases he
  have selected : ∀ m, Selected layer query m → m = model := by
    intro m hm
    obtain ⟨hm, hn⟩ := (selected_iff hres).1 hm
    rw [hnames, List.mem_singleton] at hn
    exact SemanticLayer.model_unique hm hmodel hn
  -- the conjunct of an effective filter
  have emitted : ∀ g e f, (g, e) ∈ model.defaultFilters.map (fun f => (true, f)) ++
      own.map (fun f => (false, f)) → e.agrees f = true → ∀ x, layer.dimension e.field = .ok x →
      Enforced c x f := by
    intro g e f he ha x hx
    obtain ⟨x', ps, hx', -, hc, hv⟩ := hitems (g, e) he
    rw [hx] at hx'; cases hx'
    have hb := hs₁.bound_adds hadds hc
    refine enforced_of_agrees (h.clauses ▸ hadds.clauses.subset hc) rfl ?_ ha
    rw [h.parameters]; exact hb.trans hv
  refine ⟨fun m hm f hf => ?_, fun f hf => ?_, fun m hm policy hpolicy => ?_,
    fun f hf m hm g hg hd => ?_⟩
  · cases selected m hm
    obtain ⟨d, hd, hn, hx⟩ := default_dimension hmodel hf
    exact ⟨d, hd, hn, emitted true f f (List.mem_append_left _ (List.mem_map_of_mem hf))
      f.agrees_refl _ hx⟩
  · obtain ⟨x, hx, hxm, ⟨g, hg, hgn, ha⟩ | ⟨-, hmem⟩⟩ := ownFilters_ok hown hf
    · refine ⟨x, hx, emitted true g f (List.mem_append_left _ (List.mem_map_of_mem hg)) ha x ?_⟩
      rw [hgn]; exact SemanticLayer.dimension_resolved hx
    · refine ⟨x, hx, emitted false _ f (List.mem_append_right _ (List.mem_map_of_mem hmem)) ?_ x
        (SemanticLayer.dimension_resolved hx)⟩
      exact MetricFilter.agrees_iff.2 ⟨rfl, rfl⟩
  · cases selected m hm
    obtain ⟨x, n, hx, hxm, hc, hv⟩ := hfr policy hpolicy
    obtain ⟨-, hd, hn⟩ := SemanticLayer.own_dimension hmodel (model.fresh policy hpolicy) hx
    refine ⟨x.2, hd, hn, _, n, h.clauses ▸ hc, Prod.ext hxm rfl, ?_⟩
    rw [h.parameters, hlate]; exact hv
  · cases selected m hm
    obtain ⟨d, hdm, hn, hx'⟩ := default_dimension hmodel hg
    obtain ⟨x, hx, hxm, ⟨g', hg', hgn, ha⟩ | ⟨hnone, -⟩⟩ := ownFilters_ok hown hf
    · rw [hd, hx'] at hx; cases hx
      rwa [List.inj_on_of_nodup_map model.filtered.2.1 hg hg' (hn.symm.trans hgn.symm)]
    · rw [hd, hx'] at hx; cases hx
      exact absurd hn.symm (hnone g hg)

/-! ## The production path -/

namespace ProductionSemanticQueryCompiler

/-- **The production path enforces every predicate exactly if the filters are consistent.** -/
theorem joined_enforces_iff {metrics : List (String × MetricDefinition)}
    {dimensions : List (String × DimensionDefinition)} {base : SemanticModelDefinition}
    {joins : List JoinDefinition} {p : Predicates} (hres : Resolved layer query metrics dimensions)
    (h : Joined access layer query metrics dimensions (modelNames metrics dimensions) base joins p c) :
    EnforcesAll layer query c ↔ Consistent layer query := by
  obtain ⟨models, hmodels, hp⟩ := h.predicates
  have hw := predicates_where hmodels hp
  have selected : ∀ m, Selected layer query m ↔ m ∈ models := fun m => selected_iff_mem hres hmodels
  -- an obeyed filter is among the effective ones
  have effective : ∀ f, Obeyed layer query f ↔ ∃ g, (g, f) ∈ effectiveFilters models query := by
    intro f
    simp only [Obeyed, selected, effectiveFilters, List.mem_append, List.mem_flatMap, List.mem_map]
    constructor
    · rintro (hf | ⟨m, hm, hf⟩)
      · exact ⟨false, Or.inr ⟨f, hf, rfl⟩⟩
      · exact ⟨true, Or.inl ⟨m, hm, f, hf, rfl⟩⟩
    · rintro ⟨g, ⟨m, hm, f', hf, he⟩ | ⟨f', hf, he⟩⟩
      · cases he; exact Or.inr ⟨m, hm, hf⟩
      · cases he; exact Or.inl hf
  -- the conjunct on the dimension of an obeyed filter is the one of an obeyed filter
  have conjunct : ∀ f, Obeyed layer query f → ∀ x, layer.dimension f.field = .ok x →
      ∃ e, Obeyed layer query e ∧ layer.dimension e.field = .ok x ∧ ∃ g ps,
        Clause.filter g (column (modelNames metrics dimensions) x) e.operator ps ∈ p.clauses ∧
        ps.map (fun n => p.parameters[n - 1]?) = e.value.values.map some := by
    intro f hf x hx
    obtain ⟨g, hg⟩ := (effective f).1 hf
    obtain ⟨x', g', o, ps, hx', hc⟩ := hw.filters (g, f) hg
    change layer.dimension f.field = _ at hx'
    rw [hx] at hx'; cases hx'
    obtain ⟨vs, hst, hb⟩ := hw.sound.stands _ hc
    obtain ⟨e, y, he, hy, hcol, rfl, rfl⟩ := hst.filter_inv
    cases column_inj hcol
    exact ⟨e, (effective e).2 ⟨_, he⟩, hy, g', ps, hc, hb⟩
  have enforced : Consistent layer query → ∀ f, Obeyed layer query f → ∀ x,
      layer.dimension f.field = .ok x → Enforced c x f := by
    intro hcons f hf x hx
    obtain ⟨e, he, hex, g, ps, hc, hv⟩ := conjunct f hf x hx
    refine enforced_of_agrees (h.clauses ▸ hc) rfl ?_ (hcons e f he hf x hex hx)
    rw [h.parameters]; exact hv
  constructor
  · intro hall f g hf hg x hfx hgx
    have enforced : ∀ f, Obeyed layer query f → layer.dimension f.field = .ok x →
        Enforced c x f := by
      rintro f (hf | ⟨m, hm, hf⟩) hfx
      · obtain ⟨x', hx', he⟩ := hall.filters f hf
        rw [hfx] at hx'; cases hx'; exact he
      · obtain ⟨d, hd, hn, he⟩ := hall.defaults m hm f hf
        rw [← hn, SemanticLayer.dimension_name hm.1 hd] at hfx
        cases hfx; exact he
    obtain ⟨b, col, ps, hc, hx, hv⟩ := enforced f hf hfx
    obtain ⟨b', col', ps', hc', hx', hv'⟩ := enforced g hg hgx
    rw [h.clauses] at hc hc'
    have hcol : col = col' := by
      obtain ⟨_, hst, -⟩ := hw.sound.stands _ hc
      obtain ⟨_, hst', -⟩ := hw.sound.stands _ hc'
      obtain ⟨_, y, -, -, rfl, -⟩ := hst.filter_inv
      obtain ⟨_, y', -, -, rfl, -⟩ := hst'.filter_inv
      exact congrArg _ (hx.trans hx'.symm)
    injection hw.unique _ hc _ hc' rfl rfl hcol with _ _ ho hps
    subst hps
    refine MetricFilter.agrees_iff.2 ⟨ho, ?_⟩
    have hsome : ∀ vs : List Value,
        vs.map (fun v => some v.content) = (vs.map Value.content).map some := by simp
    have hcontent := hv.symm.trans hv'
    rwa [hsome, hsome, (List.map_injective_iff.2 (Option.some_injective _)).eq_iff] at hcontent
  · intro hcons
    refine ⟨fun m hm f hf => ?_, fun f hf => ?_, fun m hm policy hpolicy => ?_,
      fun f hf m hm g hg hd => ?_⟩
    · obtain ⟨d, hd, hn, hx⟩ := default_dimension hm.1 hf
      exact ⟨d, hd, hn, enforced hcons f (Or.inr ⟨m, hm, hf⟩) _ hx⟩
    · obtain ⟨x, _, _, _, hx, -⟩ := hw.filters (false, f)
        (List.mem_append_right _ (List.mem_map_of_mem hf))
      exact ⟨x, hx, enforced hcons f (Or.inl hf) x hx⟩
    · obtain ⟨x, n, hx, hxm, hc, hv⟩ := hw.fresh m ((selected m).1 hm) policy hpolicy
      obtain ⟨-, hd, hn⟩ := SemanticLayer.own_dimension hm.1 (m.fresh policy hpolicy) hx
      refine ⟨x.2, hd, hn, _, n, h.clauses ▸ hc, Prod.ext hxm rfl, ?_⟩
      rw [h.parameters]; exact hv
    · obtain ⟨d, -, -, hx⟩ := default_dimension hm.1 hg
      exact hcons g f (Or.inr ⟨m, hm, hg⟩) (Or.inl hf) _ hx (hd.trans hx)

end ProductionSemanticQueryCompiler

/-! ## Authorization -/

/-- The caller may read the dimension. -/
def Access.reads (access : Access) (d : DimensionDefinition) : Prop :=
  access.permits d.sensitivity d.authorizationTags

/-- The clause is in the SQL because the query names its dimension. -/
def Clause.ofQuery : Clause → Bool
  | filter governed .. => !governed
  | periodStart .. | periodEnd .. | latest .. | asOf .. => true
  | fresh .. | validFrom .. | validTo .. => false

/-- The caller may read every dimension that is in the SQL because the query names it. -/
structure Authorized (access : Access) (c : CompiledSemanticQuery) : Prop where
  selected : ∀ g ∈ c.statement.dimensions, access.reads g.column.dimension
  clauses : ∀ cl ∈ c.statement.clauses, cl.ofQuery = true → access.reads cl.column.dimension

/-- A selected model has a default filter on the dimension. -/
def Governed (layer : SemanticLayer) (query : MetricQuery) (x : String × DimensionDefinition) :
    Prop :=
  ∃ m, Selected layer query m ∧ ∃ f ∈ m.defaultFilters, layer.dimension f.field = .ok x

/-- The caller may read the dimensions of the filters, but for the governed ones. -/
def ReadsFilters (access : Access) (layer : SemanticLayer) (query : MetricQuery) : Prop :=
  ∀ f ∈ query.filters, ∀ x, layer.dimension f.field = .ok x → ¬Governed layer query x →
    access.reads x.2

/-- The caller may read the dimensions of the relative period and of the snapshot. -/
def ReadsTimes (access : Access) (layer : SemanticLayer) (query : MetricQuery) : Prop :=
  (∀ period, query.relativePeriod = some period → ∀ x, layer.dimension period.field = .ok x →
    access.reads x.2) ∧
  ∀ snapshot, query.snapshot = some snapshot → ∀ x, layer.dimension snapshot.field = .ok x →
    access.reads x.2

theorem validateAccess_reads {d : DimensionDefinition}
    (h : validateAccess "dimension" d.name d.sensitivity d.authorizationTags access = .ok ()) :
    access.reads d := by
  simp only [validateAccess, bind_eq_ok, require_eq_ok, List.filter_eq_nil_iff] at h
  obtain ⟨_, hs, ht⟩ := h
  exact ⟨hs, fun t hmem => by simpa using ht t hmem⟩

/-- **The checks of the layer cover the selected dimensions.** -/
theorem validateQuery_reads {metrics : List (String × MetricDefinition)}
    {dimensions : List (String × DimensionDefinition)} (hres : Resolved layer query metrics dimensions)
    (h : layer.validateQuery query access = .ok ()) : ∀ x ∈ dimensions, access.reads x.2 := by
  simp only [SemanticLayer.validateQuery, SemanticLayer.validateSelection, bind_eq_ok] at h
  obtain ⟨_, ⟨metrics', hm, dimensions', hd, _, -, _, hall, -⟩, -⟩ := h
  have hres' : Resolved layer query metrics' dimensions' := ⟨mapM_eq_ok.1 hm, mapM_eq_ok.1 hd⟩
  obtain ⟨rfl, rfl⟩ := hres.unique hres'
  exact fun x hx => validateAccess_reads (forM_eq_ok.1 hall x hx)

/-- What the one-model compiler keeps of the filters of the query. -/
theorem mem_ownFilters {model : SemanticModelDefinition} {fs own : List MetricFilter}
    (h : SemanticQueryCompiler.ownFilters layer model fs = .ok own) {e : MetricFilter} (he : e ∈ own) :
    ∃ f ∈ fs, ∃ x, layer.dimension f.field = .ok x ∧ e = { f with field := x.2.name } ∧
      ∀ g ∈ model.defaultFilters, g.field ≠ x.2.name := by
  induction fs generalizing own with
  | nil => cases h; cases he
  | cons f' fs ih =>
    simp only [SemanticQueryCompiler.ownFilters, bind_eq_ok, require_eq_ok] at h
    obtain ⟨x, hx, _, hmodel, h⟩ := h
    split at h
    · simp only [bind_eq_ok, require_eq_ok] at h
      obtain ⟨_, -, h⟩ := h
      obtain ⟨f, hf, h⟩ := ih h he
      exact ⟨f, List.mem_cons_of_mem _ hf, h⟩
    · rename_i hfind
      rw [bind_eq_ok] at h
      obtain ⟨kept, hkept, h⟩ := h
      cases h
      rcases List.mem_cons.1 he with rfl | he
      · refine ⟨f', List.mem_cons_self, x, hx, rfl, fun g hg hn => ?_⟩
        exact absurd hn (by simpa using List.find?_eq_none.1 hfind g hg)
      · obtain ⟨f, hf, h⟩ := ih hkept he
        exact ⟨f, List.mem_cons_of_mem _ hf, h⟩

/-- **The one-model compiler authorizes all but the filters.** -/
theorem compileModel_authorized_iff {metrics : List (String × MetricDefinition)}
    {dimensions : List (String × DimensionDefinition)} {model : SemanticModelDefinition}
    {p : Predicates} (hres : Resolved layer query metrics dimensions)
    (hvalid : layer.validateQuery query access = .ok ())
    (hnames : modelNames metrics dimensions = [model.name])
    (hmodel : model ∈ layer.definition.models)
    (h : CompiledModel layer query metrics dimensions model p c) :
    Authorized access c ↔ ReadsFilters access layer query := by
  obtain ⟨filters, p₁, hfilters, hloop, hfresh⟩ := h.predicates
  simp only [SemanticQueryCompiler.effectiveFilters, bind_eq_ok] at hfilters
  obtain ⟨own, hown, he⟩ := hfilters
  obtain ⟨hs₁, hitems⟩ : p₁.Sound (SemanticQueryCompiler.setting layer query model filters) ∧ _ :=
    SemanticQueryCompiler.filters_sound hloop
  obtain ⟨hs, hadds, -⟩ := SemanticQueryCompiler.freshness_sound hs₁ hfresh
  cases he
  constructor
  · intro ha f hf x hx hfree
    obtain ⟨x', hx', hxm, ⟨g, hg, hgn, -⟩ | ⟨-, hmem⟩⟩ := ownFilters_ok hown hf
    · rw [hx] at hx'; cases hx'
      refine absurd ⟨model, ?_, g, hg, hgn ▸ SemanticLayer.dimension_resolved hx⟩ hfree
      exact (selected_iff hres).2 ⟨hmodel, hnames ▸ List.mem_cons_self⟩
    · rw [hx] at hx'; cases hx'
      obtain ⟨y, ps, hy, -, hc, -⟩ := hitems (false, _)
        (List.mem_append_right _ (List.mem_map_of_mem hmem))
      change layer.dimension x.2.name = _ at hy
      rw [SemanticLayer.dimension_resolved hx] at hy; cases hy
      exact ha.clauses _ (h.clauses ▸ hadds.clauses.subset hc) rfl
  · intro hr
    refine ⟨fun g hg => ?_, fun cl hcl hq => ?_⟩
    · rw [h.dimension_items] at hg
      obtain ⟨x, hx, rfl⟩ := List.mem_map.1 hg
      exact validateQuery_reads hres hvalid x hx
    · rw [h.clauses] at hcl
      obtain ⟨vs, hst, -⟩ := hs.stands cl hcl
      cases hst with
      | @filter g e x ps he hx _ =>
        cases g with
        | true => cases hq
        | false =>
          rcases List.mem_append.1 he with he | he
          · obtain ⟨_, -, he⟩ := List.mem_map.1 he; cases he
          obtain ⟨e', he', heq⟩ := List.mem_map.1 he
          cases heq
          obtain ⟨f, hf, y, hy, rfl, hnone⟩ := mem_ownFilters hown he'
          change layer.dimension y.2.name = _ at hx
          rw [SemanticLayer.dimension_resolved hy] at hx; cases hx
          refine hr f hf _ hy ?_
          rintro ⟨m, hm, g, hg, hgx⟩
          obtain ⟨hm, hn⟩ := (selected_iff hres).1 hm
          rw [hnames, List.mem_singleton] at hn
          cases SemanticLayer.model_unique hm hmodel hn
          obtain ⟨d, hd, hdn, hgd⟩ := default_dimension hmodel hg
          rw [hgd] at hgx; cases hgx
          exact hnone g hg hdn.symm
      | periodStart hp => cases hp
      | periodEnd hp => cases hp
      | fresh => cases hq
      | latest hp => cases hp
      | asOf hp => cases hp
      | validFrom => cases hq
      | validTo => cases hq

namespace ProductionSemanticQueryCompiler

/-- The default filters come before those of the query. -/
theorem default_before {models : List SemanticModelDefinition} {item : Bool × MetricFilter}
    {before after : List (Bool × MetricFilter)}
    (h : effectiveFilters models query = before ++ item :: after) (hi : item.1 = false) :
    item.2 ∈ query.filters ∧ ∀ m ∈ models, ∀ f ∈ m.defaultFilters, (true, f) ∈ before := by
  have governed : ∀ e ∈ models.flatMap fun m => m.defaultFilters.map fun f => (true, f),
      e.1 = true := by
    intro e he
    obtain ⟨m, -, he⟩ := List.mem_flatMap.1 he
    obtain ⟨f, -, rfl⟩ := List.mem_map.1 he
    rfl
  have own : ∀ e ∈ query.filters.map fun f => (false, f), e.2 ∈ query.filters := by
    intro e he
    obtain ⟨f, hf, rfl⟩ := List.mem_map.1 he
    exact hf
  have mem : ∀ m ∈ models, ∀ f ∈ m.defaultFilters,
      (true, f) ∈ models.flatMap fun m => m.defaultFilters.map fun f => (true, f) :=
    fun m hm f hf => List.mem_flatMap.2 ⟨m, hm, List.mem_map_of_mem hf⟩
  rcases List.append_eq_append_iff.1 h with ⟨rest, rfl, hrest⟩ | ⟨rest, hrest, hrest'⟩
  · refine ⟨own item (hrest ▸ List.mem_append_right _ List.mem_cons_self), fun m hm f hf => ?_⟩
    exact List.mem_append_left _ (mem m hm f hf)
  · cases rest with
    | nil =>
      rw [List.append_nil] at hrest
      rw [List.nil_append] at hrest'
      refine ⟨own item (hrest' ▸ List.mem_cons_self), fun m hm f hf => ?_⟩
      rw [← hrest]; exact mem m hm f hf
    | cons e rest =>
      cases hrest'
      have htrue := governed item (hrest ▸ List.mem_append_right _ List.mem_cons_self)
      rw [hi] at htrue
      cases htrue

/-- **The production path authorizes all but the filters and the times.** -/
theorem joined_authorized_iff {metrics : List (String × MetricDefinition)}
    {dimensions : List (String × DimensionDefinition)} {base : SemanticModelDefinition}
    {joins : List JoinDefinition} {p : Predicates} (hres : Resolved layer query metrics dimensions)
    (hvalid : layer.validateQuery query access = .ok ())
    (h : Joined access layer query metrics dimensions (modelNames metrics dimensions) base joins p c) :
    Authorized access c ↔ ReadsFilters access layer query ∧ ReadsTimes access layer query := by
  obtain ⟨models, hmodels, hp⟩ := h.predicates
  have hw := predicates_where hmodels hp
  have selected : ∀ m, Selected layer query m ↔ m ∈ models := fun m => selected_iff_mem hres hmodels
  constructor
  · intro ha
    refine ⟨fun f hf x hx hfree => ?_, fun period hperiod x hx => ?_, fun snapshot hs x hx => ?_⟩
    · obtain ⟨x', g, o, ps, hx', hc⟩ := hw.filters (false, f)
        (List.mem_append_right _ (List.mem_map_of_mem hf))
      change layer.dimension f.field = _ at hx'
      rw [hx] at hx'; cases hx'
      obtain ⟨vs, hst, -⟩ := hw.sound.stands _ hc
      obtain ⟨e, y, he, hy, hcol, -, -⟩ := hst.filter_inv
      cases column_inj hcol
      cases g with
      | false => exact ha.clauses _ (h.clauses ▸ hc) rfl
      | true =>
        -- the conjunct is the one of a default
        refine absurd ?_ hfree
        rcases List.mem_append.1 he with he | he
        · obtain ⟨m, hm, he⟩ := List.mem_flatMap.1 he
          obtain ⟨e', he', heq⟩ := List.mem_map.1 he
          cases heq
          exact ⟨m, (selected m).2 hm, e, he', hy⟩
        · obtain ⟨_, -, heq⟩ := List.mem_map.1 he; cases heq
    · obtain ⟨x', b, hx', hc⟩ := hw.period period hperiod
      change layer.dimension period.field = _ at hx'
      rw [hx] at hx'; cases hx'
      exact ha.clauses _ (h.clauses ▸ hc) rfl
    · obtain ⟨x', hx', ⟨t, hc⟩ | ⟨n, hc⟩⟩ := hw.snapshot snapshot hs <;>
      · change layer.dimension snapshot.field = _ at hx'
        rw [hx] at hx'; cases hx'
        exact ha.clauses _ (h.clauses ▸ hc) rfl
  · rintro ⟨hr, hperiod, hsnapshot⟩
    refine ⟨fun g hg => ?_, fun cl hcl hq => ?_⟩
    · rw [h.dimension_items] at hg
      obtain ⟨x, hx, rfl⟩ := List.mem_map.1 hg
      exact validateQuery_reads hres hvalid x hx
    · rw [h.clauses] at hcl
      obtain ⟨vs, hst, -⟩ := hw.sound.stands cl hcl
      cases hst with
      | @filter g f x ps _ _ _ =>
        cases g with
        | true => cases hq
        | false =>
          obtain ⟨before, item, after, y, ps', hitems, hy, heq, -, hfirst⟩ := hw.first _ hcl rfl
          injection heq with hg hcol
          cases column_inj hcol
          obtain ⟨hf, hdefaults⟩ := default_before hitems hg.symm
          refine hr _ hf _ hy ?_
          rintro ⟨m, hm, e, he, hex⟩
          exact hfirst _ (hdefaults m ((selected m).1 hm) e he) hex
      | periodStart hq' hx _ => exact hperiod _ hq' _ hx
      | periodEnd hq' hx _ => exact hperiod _ hq' _ hx
      | fresh => cases hq
      | latest hq' _ hx => exact hsnapshot _ hq' _ hx
      | asOf hq' _ hx => exact hsnapshot _ hq' _ hx
      | validFrom => cases hq
      | validTo => cases hq

end ProductionSemanticQueryCompiler

/-- **Authorization of a compiled query**: the dimensions that are in the SQL because the query
    names them are authorized exactly if those of its filters are, but for the governed ones,
    and on the production path those of the relative period and of the snapshot. -/
theorem authorized_iff (access : Access) (layer : SemanticLayer) (query : MetricQuery)
    (c : CompiledSemanticQuery) :
    (SemanticQueryCompiler.compile access layer query = .ok c →
      (Authorized access c ↔ ReadsFilters access layer query)) ∧
    (ProductionSemanticQueryCompiler.compile access layer query = .ok c →
      (Authorized access c ↔ ReadsFilters access layer query ∧ ReadsTimes access layer query)) := by
  have plain : SemanticQueryCompiler.compile access layer query = .ok c →
      (Authorized access c ↔ ReadsFilters access layer query) := by
    intro h
    obtain ⟨metrics, dimensions, model, p, hres, hvalid, hnames, hmodel, h⟩ :=
      SemanticQueryCompiler.compile_ok h
    exact compileModel_authorized_iff hres hvalid hnames hmodel h
  refine ⟨plain, fun h => ?_⟩
  obtain ⟨metrics, dimensions, hres, hvalid, -, ⟨hplain, h⟩ | ⟨-, base, joins, p, h⟩⟩ :=
    ProductionSemanticQueryCompiler.compile_cases h
  · rw [plain h]
    -- a query for the one-model compiler has neither
    refine ⟨fun hr => ⟨hr, fun period hp => ?_, fun snapshot hs => ?_⟩, fun hr => hr.1⟩
    all_goals
      obtain ⟨_, _, _, -, -, -, hadv, -⟩ := hplain
      simp_all [ProductionSemanticQueryCompiler.advanced]
  · exact ProductionSemanticQueryCompiler.joined_authorized_iff hres hvalid h

/-- A query without filters, through both compilers. -/
theorem authorized_weekly :
    ∃ c c', SemanticQueryCompiler.compile Sample.access Sample.layer (Sample.weekly []) = .ok c ∧
      Authorized Sample.access c ∧
      ProductionSemanticQueryCompiler.compile Sample.access Sample.layer (Sample.weekly []) = .ok c' ∧
      Authorized Sample.access c' := by
  obtain ⟨c, hc⟩ := exists_ok
    (x := SemanticQueryCompiler.compile Sample.access Sample.layer (Sample.weekly []))
    (by decide +kernel)
  obtain ⟨c', hc'⟩ := exists_ok
    (x := ProductionSemanticQueryCompiler.compile Sample.access Sample.layer (Sample.weekly []))
    (by decide +kernel)
  have hfilters : ReadsFilters Sample.access Sample.layer (Sample.weekly []) :=
    fun f hf => (List.not_mem_nil hf).elim
  refine ⟨c, c', hc, ((authorized_iff _ _ _ _).1 hc).2 hfilters, hc',
    ((authorized_iff _ _ _ _).2 hc').2 ⟨hfilters, ?_, ?_⟩⟩
  · intro period h; cases h
  · intro snapshot h; cases h

/-- **A filter on a restricted dimension is not checked**: both compilers accept it. -/
theorem restricted_filter :
    (∃ c, SemanticQueryCompiler.compile Sample.access Sample.layer Sample.profitable = .ok c ∧
      ¬Authorized Sample.access c) ∧
    ∃ c, ProductionSemanticQueryCompiler.compile Sample.access Sample.layer Sample.profitable = .ok c ∧
      ¬Authorized Sample.access c := by
  have leaks : ∀ {c : CompiledSemanticQuery}, (c.statement.clauses.any fun cl => cl.ofQuery &&
      decide (¬Sample.access.permits cl.column.dimension.sensitivity
        cl.column.dimension.authorizationTags)) = true → ¬Authorized Sample.access c := by
    intro c h ha
    simp only [List.any_eq_true, Bool.and_eq_true, decide_eq_true_eq] at h
    obtain ⟨cl, hcl, hq, hr⟩ := h
    exact hr (ha.clauses cl hcl hq)
  have plain : (SemanticQueryCompiler.compile Sample.access Sample.layer Sample.profitable).map
      (fun c => c.statement.clauses.any fun cl => cl.ofQuery &&
        decide (¬Sample.access.permits cl.column.dimension.sensitivity
          cl.column.dimension.authorizationTags)) = .ok true := by decide +kernel
  have production : (ProductionSemanticQueryCompiler.compile Sample.access Sample.layer
      Sample.profitable).map (fun c => c.statement.clauses.any fun cl => cl.ofQuery &&
        decide (¬Sample.access.permits cl.column.dimension.sensitivity
          cl.column.dimension.authorizationTags)) = .ok true := by decide +kernel
  obtain ⟨c, hc, h⟩ := map_eq_ok.1 plain
  obtain ⟨c', hc', h'⟩ := map_eq_ok.1 production
  exact ⟨⟨c, hc, leaks h⟩, c', hc', leaks h'⟩

end TracciaRuntime.Semantics
