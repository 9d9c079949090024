/-
  Traccia Runtime formalization — the one-model compiler
  (`semantics/compiler.py`).
-/
import TracciaRuntime.Semantics.Layer
import TracciaRuntime.Semantics.Statement

namespace TracciaRuntime.Semantics

open Py

/-- The WHERE clause so far and its parameters. -/
structure Predicates where
  clauses : List Clause := []
  parameters : List Value := []
  deriving DecidableEq

namespace Predicates

/-- The number of the next parameter. -/
def next (p : Predicates) : Nat := p.parameters.length + 1

def push (p : Predicates) (clauses : List Clause) (parameters : List Value) : Predicates :=
  { clauses := p.clauses ++ clauses, parameters := p.parameters ++ parameters }

/-- `_filter`: a valid filter has no null among its values. -/
def filter (p : Predicates) (governed : Bool) (column : Column) (f : MetricFilter) : Predicates :=
  p.push [.filter governed column f.operator (List.range' p.next f.value.values.length)]
    f.value.values

end Predicates

/-- The names of the models, in the order in which they first occur. -/
def modelNames (metrics : List (String × MetricDefinition))
    (dimensions : List (String × DimensionDefinition)) : List String :=
  (metrics.map (·.1) ++ dimensions.map (·.1)).reverse.dedup.reverse

namespace SemanticLayer
variable (layer : SemanticLayer)

/-- `_model`. -/
def model (name : String) : Except SemanticError SemanticModelDefinition :=
  match layer.definition.models.find? fun m => m.name = name with
  | some m => .ok m
  | none => .error (.keyError name)

/-- `_selected_name`. -/
def selectedName (field : String) : Except SemanticError String :=
  match layer.dimension field with
  | .ok x => .ok x.2.name
  | .error _ => (layer.metric field).map (·.2.name)

/-- The ORDER BY list, of selected names only. -/
def order (query : MetricQuery) (metrics : List (String × MetricDefinition))
    (dimensions : List (String × DimensionDefinition)) :
    Except SemanticError (List (String × SortDirection)) :=
  query.orderBy.mapM fun sort => do
    let name ← layer.selectedName sort.field
    require (name ∈ dimensions.map (·.2.name) ∨ name ∈ metrics.map (·.2.name)) (.configuration
      s!"order field '{sort.field}' is not selected")
    pure (name, sort.direction)

end SemanticLayer

namespace SemanticQueryCompiler
variable (access : Access) (layer : SemanticLayer)

/-- The filters of the query that `_effective_filters` keeps for a model. -/
def ownFilters (model : SemanticModelDefinition) :
    List MetricFilter → Except SemanticError (List MetricFilter)
  | [] => pure []
  | f :: fs => do
    let x ← layer.dimension f.field
    require (x.1 = model.name) (.configuration
      s!"filter '{f.field}' belongs to a different semantic model")
    match model.defaultFilters.find? fun g => g.field = x.2.name with
    | some guarded => do
      require (guarded.agrees f) (.configuration
        s!"filter '{x.2.name}' cannot override its governed default")
      ownFilters model fs
    | none => do
      let kept ← ownFilters model fs
      pure ({ f with field := x.2.name } :: kept)

/-- `_effective_filters`, each with whether it is a governed one. -/
def effectiveFilters (model : SemanticModelDefinition) (filters : List MetricFilter) :
    Except SemanticError (List (Bool × MetricFilter)) := do
  let own ← ownFilters layer model filters
  pure (model.defaultFilters.map (fun f => (true, f)) ++ own.map fun f => (false, f))

/-- A turn of the loop over the effective filters. -/
def addFilter (model : SemanticModelDefinition) (p : Predicates) (item : Bool × MetricFilter) :
    Except SemanticError Predicates := do
  let x ← layer.dimension item.2.field
  require (x.1 = model.name) (.configuration
    s!"filter '{item.2.field}' belongs to a different semantic model")
  pure (p.filter item.1 ⟨x.1, x.2, none⟩ item.2)

/-- The freshness bound of the model. -/
def addFreshness (model : SemanticModelDefinition) (p : Predicates) :
    Except SemanticError Predicates :=
  match model.freshness with
  | none => pure p
  | some freshness => do
    let x ← layer.dimension freshness.field
    require (x.1 = model.name) (.configuration
      s!"freshness field '{freshness.field}' belongs to a different model")
    pure (p.push [.fresh ⟨x.1, x.2, none⟩ p.next] [.int freshness.maxAgeSeconds])

/-- The statement of a query on one model. -/
def compileModel (query : MetricQuery) (metrics : List (String × MetricDefinition))
    (dimensions : List (String × DimensionDefinition)) (model : SemanticModelDefinition) :
    Except SemanticError CompiledSemanticQuery := do
  let filters ← effectiveFilters layer model query.filters
  let p ← filters.foldlM (addFilter layer model) {}
  let p ← addFreshness layer model p
  let orderBy ← layer.order query metrics dimensions
  pure {
    statement := {
      dimensions := dimensions.map fun x => ⟨⟨x.1, x.2, none⟩, none⟩
      metrics := metrics.map fun x => ⟨x.2, none, false⟩
      base := ⟨model.table, none⟩
      clauses := p.clauses
      orderBy
      limit := query.limit }
    parameters := p.parameters
    semanticLayer := layer.definition.name
    semanticLayerVersion := layer.definition.version
    semanticModel := model.name }

/-- `SemanticQueryCompiler.compile`. -/
def compile (query : MetricQuery) : Except SemanticError CompiledSemanticQuery := do
  layer.validateQuery query access
  let metrics ← query.metrics.mapM layer.metric
  let dimensions ← query.dimensions.mapM layer.dimension
  match modelNames metrics dimensions with
  | [modelName] => do
    require (query.timeRange.getD "" = "") (.configuration
      "normalize time_range into typed filters before semantic SQL compilation")
    let model ← layer.model modelName
    compileModel layer query metrics dimensions model
  | _ => throw (.configuration ("semantic compiler supports one model per query; " ++
      "use an explicit governed join plan"))

end SemanticQueryCompiler

end TracciaRuntime.Semantics
