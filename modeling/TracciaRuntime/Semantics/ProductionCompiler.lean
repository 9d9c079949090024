/-
  Traccia Runtime formalization — the production compiler
  (`semantics/production_compiler.py`).

  A query on one model without advanced features goes to the one-model
  compiler; every other query joins its models under the aliases m0, m1, ….
-/
import TracciaRuntime.Semantics.Compiler

namespace TracciaRuntime.Semantics

open Py

namespace ProductionSemanticQueryCompiler
variable (access : Access) (layer : SemanticLayer)

/-- `_validate_compilation_shape`. -/
def validateCompilationShape (query : MetricQuery) : Except SemanticError Unit := do
  require (query.timeRange.getD "" = "") (.configuration
    "normalize time_range into typed filters or relative_period before compilation")
  require (query.comparison = false) (.configuration
    "period comparisons require separate semantic queries and a compare_periods graph node")
  require (query.rollingWindows = false) (.configuration
    ("rolling windows require an explicit calculate graph node or a registered " ++
      "analytical method"))
  require (query.cohortDimensions = []) (.configuration
    "cohort analysis requires an explicit analytical method graph node")
  require (query.funnelMetrics = []) (.configuration
    ("funnel analysis requires separate result sets and an explicit analytical " ++
      "method graph node"))
  require (query.operation = .none ∨ query.operation = .contribution) (.configuration
    s!"operation '{query.operation.value}' must be lowered into analytical graph nodes")

/-- `_advanced`. -/
def advanced (query : MetricQuery) : Bool :=
  query.timeGrain.isSome || query.relativePeriod.isSome || query.comparison ||
    query.rollingWindows || query.snapshot.isSome || query.operation ≠ .none ||
    !query.cohortDimensions.isEmpty || !query.funnelMetrics.isEmpty

/-- The check of a semi-additive metric. -/
def validateSemiAdditive (query : MetricQuery)
    (dimensions : List (String × DimensionDefinition)) (metric : MetricDefinition) :
    Except SemanticError Unit :=
  require (metric.behavior = .semiAdditive → query.snapshot = none →
      ∀ n ∈ metric.semiAdditiveDimensions, n ∈ dimensions.map (·.2.name)) (.configuration
    (s!"semi-additive metric '{metric.name}' requires its dimensions " ++
      s!"{showSorted metric.semiAdditiveDimensions} or an explicit snapshot"))

/-- `needs_production_path`. -/
def needsProductionPath (metrics : List (String × MetricDefinition))
    (models : List SemanticModelDefinition) : Bool :=
  (metrics.any fun x => x.2.behavior ≠ .additive || x.2.nullBehavior ≠ .preserve) ||
    models.any fun m => m.validFromDimension.getD "" ≠ "" || m.validToDimension.getD "" ≠ "" ||
      m.lateArrivalSeconds ≠ 0

/-! ## Joins -/

/-- The join leads from a reached model to a remaining one, in either direction. -/
def links (reached remaining : List String) (j : JoinDefinition) : Bool :=
  (j.leftModel ∈ reached && j.rightModel ∈ remaining) ||
    (j.rightModel ∈ reached && j.leftModel ∈ remaining)

/-- The models that are still remaining after a join. -/
def remainingAfter (reached remaining : List String) (j : JoinDefinition) : List String :=
  remaining.filter fun m => m ∉ j.leftModel :: j.rightModel :: reached

/-- `_join_path`.  Every round reaches a remaining model, so that their number bounds the
    rounds. -/
def joinPath : (rounds : Nat) → (reached remaining : List String) →
    Except SemanticError (List JoinDefinition)
  | 0, _, _ => pure []
  | rounds + 1, reached, remaining =>
    if remaining = [] then pure []
    else match layer.definition.joins.find? (links reached remaining) with
      | none => throw (.configuration
          s!"no direct governed join from {showSorted reached} to {showSorted remaining}")
      | some candidate => do
        let requiredTags := candidate.authorizationTags.filter (· ∉ access.authorizationTags)
        require (requiredTags = []) (.configuration
          s!"join '{candidate.name}' requires authorization tags {showSorted requiredTags}")
        let path ← joinPath rounds (candidate.leftModel :: candidate.rightModel :: reached)
          (remainingAfter reached remaining candidate)
        pure (candidate :: path)

/-! ## Aliases -/

/-- `aliases[name]`. -/
def aliasOf (names : List String) (name : String) : Except SemanticError String :=
  if name ∈ names then .ok s!"m{names.idxOf name}" else .error (.keyError name)

/-- The column of a dimension. -/
def columnOf (names : List String) (x : String × DimensionDefinition) :
    Except SemanticError Column := do
  let a ← aliasOf names x.1
  pure ⟨x.1, x.2, some a⟩

/-! ## The WHERE clause -/

/-- A turn of the loop over the effective filters: one for each dimension. -/
def addFilter (names : List String) (x : List (String × String) × Predicates)
    (item : Bool × MetricFilter) :
    Except SemanticError (List (String × String) × Predicates) := do
  let d ← layer.dimension item.2.field
  if (d.1, d.2.name) ∈ x.1 then pure x
  else do
    let column ← columnOf names d
    pure ((d.1, d.2.name) :: x.1, x.2.filter item.1 column item.2)

def addRelativePeriod (names : List String) (query : MetricQuery) (p : Predicates) :
    Except SemanticError Predicates :=
  match query.relativePeriod with
  | none => pure p
  | some period => do
    let d ← layer.dimension period.field
    let column ← columnOf names d
    pure (p.push [.periodStart column p.next period.unit, .periodEnd column period.includeCurrent]
      [.int period.count])

def addFreshness (names : List String) (p : Predicates) (name : String) :
    Except SemanticError Predicates := do
  let model ← layer.model name
  match model.freshness with
  | none => pure p
  | some freshness => do
    let d ← layer.dimension freshness.field
    let a ← aliasOf names name
    pure (p.push [.fresh ⟨name, d.2, some a⟩ p.next]
      [.int (freshness.maxAgeSeconds + model.lateArrivalSeconds)])

def addSnapshot (names : List String) (query : MetricQuery) (p : Predicates) :
    Except SemanticError Predicates :=
  match query.snapshot with
  | none => pure p
  | some snapshot => do
    let d ← layer.dimension snapshot.field
    let column ← columnOf names d
    match snapshot.mode with
    | .latest => do
      let model ← layer.model d.1
      pure (p.push [.latest column model.table] [])
    | .asOf => pure (p.push [.asOf column p.next] [.str (snapshot.asOf.getD "")])
    | .sameDtd => throw (.configuration
        "same-DTD snapshots require an explicit compare_periods graph node")

/-- The instant of an `as_of` snapshot. -/
def asOf? (query : MetricQuery) : Option String :=
  match query.snapshot with
  | some snapshot => if snapshot.mode = .asOf then some (snapshot.asOf.getD "") else none
  | none => none

/-- The validity of a slowly changing model. -/
def addValidity (names : List String) (query : MetricQuery) (p : Predicates) (name : String) :
    Except SemanticError Predicates := do
  let model ← layer.model name
  let start := model.validFromDimension.getD ""
  let stop := model.validToDimension.getD ""
  if start = "" ∨ stop = "" then pure p
  else do
    let validFrom ← layer.dimension start
    let validTo ← layer.dimension stop
    let a ← aliasOf names name
    let instant := asOf? query
    let number := instant.map fun _ => p.next
    pure (p.push [.validFrom ⟨name, validFrom.2, some a⟩ number,
      .validTo ⟨name, validTo.2, some a⟩ number] (instant.toList.map .str))

/-- The default filters of the selected models, then those of the query. -/
def effectiveFilters (models : List SemanticModelDefinition) (query : MetricQuery) :
    List (Bool × MetricFilter) :=
  (models.flatMap fun m => m.defaultFilters.map fun f => (true, f)) ++
    query.filters.map fun f => (false, f)

/-- The WHERE clause of a query. -/
def predicates (names : List String) (models : List SemanticModelDefinition)
    (query : MetricQuery) : Except SemanticError Predicates := do
  let x ← (effectiveFilters models query).foldlM (addFilter layer names) ([], {})
  let p ← addRelativePeriod layer names query x.2
  let p ← names.foldlM (addFreshness layer names) p
  let p ← addSnapshot layer names query p
  names.foldlM (addValidity layer names query) p

/-! ## The statement -/

/-- The model that the emission of a join introduces. -/
def emitted (names : List String) (j : JoinDefinition) : String :=
  if j.leftModel ∈ names then j.rightModel else j.leftModel

/-- A turn of the loop over the joins. -/
def emitJoin (names : List String) (j : JoinDefinition) : Except SemanticError JoinItem := do
  require (¬(j.relationship = .oneToMany ∧ j.fanoutSafe = false)) (.configuration
    s!"join '{j.name}' may fan out the fact model; split it into graph queries")
  let model ← layer.model (emitted names j)
  let a ← aliasOf names (emitted names j)
  pure ⟨⟨model.table, some a⟩, j.sqlOn⟩

/-- The lineage of the selected metrics and dimensions. -/
def lineage (metrics : List (String × MetricDefinition))
    (dimensions : List (String × DimensionDefinition)) : Dict String (List String) :=
  let ofMetrics := metrics.foldl (fun d x =>
    if x.2.lineage = [] then d else Dict.set d x.2.name x.2.lineage) []
  dimensions.foldl (fun d x =>
    if x.2.lineage = [] then d else Dict.set d x.2.name x.2.lineage) ofMetrics

def explanation (query : MetricQuery) (base : String) (models : List SemanticModelDefinition)
    (joins : List JoinDefinition) : List String :=
  s!"base fact model: {base}" ::
    (query.relativePeriod.toList.map fun p =>
      s!"relative period: last {p.count} {p.unit.value}(s)") ++
    (models.flatMap fun m => m.freshness.toList.map fun f =>
      s!"freshness enforced for {m.name}: {f.maxAgeSeconds}s maximum age") ++
    ((models.filter fun m => m.validFromDimension.getD "" ≠ "" ∧
      m.validToDimension.getD "" ≠ "").map fun m =>
      s!"slowly-changing validity enforced for {m.name}") ++
    joins.map fun j => s!"governed join: {j.name} ({j.relationship.value})"

/-- The production path of `compile`. -/
def compileJoined (query : MetricQuery) (metrics : List (String × MetricDefinition))
    (dimensions : List (String × DimensionDefinition)) (names : List String)
    (models : List SemanticModelDefinition) : Except SemanticError CompiledSemanticQuery :=
  match (metrics.map (·.1)).dedup with
  | [base] => do
    let targets := names.filter (· ≠ base)
    let joins ← joinPath access layer targets.length [base] targets
    let dimensionItems ← dimensions.mapM fun x => do
      let column ← columnOf names x
      pure (GroupItem.mk column (if x.2.isTime then query.timeGrain else none))
    let metricItems ← metrics.mapM fun x => do
      let a ← aliasOf names x.1
      pure (MetricItem.mk x.2 (some a) (query.operation = .contribution))
    let p ← predicates layer names models query
    let model ← layer.model base
    let a ← aliasOf names base
    let joinItems ← joins.mapM (emitJoin layer names)
    let orderBy ← layer.order query metrics dimensions
    pure {
      statement := {
        dimensions := dimensionItems
        metrics := metricItems
        base := ⟨model.table, some a⟩
        joins := joinItems
        clauses := p.clauses
        orderBy
        limit := query.limit }
      parameters := p.parameters
      semanticLayer := layer.definition.name
      semanticLayerVersion := layer.definition.version
      semanticModel := base
      selectedModels := names
      joins := joins.map (·.name)
      lineage := lineage metrics dimensions
      explanation := explanation query base models joins }
  | _ => throw (.configuration ("multi-fact metric queries must be split into separate graph " ++
      "result sets and joined explicitly"))

/-- `ProductionSemanticQueryCompiler.compile`. -/
def compile (query : MetricQuery) : Except SemanticError CompiledSemanticQuery := do
  validateCompilationShape query
  layer.validateQuery query access
  let metrics ← query.metrics.mapM layer.metric
  let dimensions ← query.dimensions.mapM layer.dimension
  metrics.forM fun x => validateSemiAdditive query dimensions x.2
  let names := modelNames metrics dimensions
  let models ← names.mapM layer.model
  if names.length = 1 ∧ advanced query = false ∧ needsProductionPath metrics models = false then
    SemanticQueryCompiler.compile access layer query
  else compileJoined access layer query metrics dimensions names models

end ProductionSemanticQueryCompiler

end TracciaRuntime.Semantics
