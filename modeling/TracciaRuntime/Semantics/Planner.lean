/-
  Traccia Runtime formalization — the lowering of semantic queries to analytical graphs
  (`semantics/planner.py`).

  Names, versions and timeouts, which only pass through, and the metadata are left out.
-/
import TracciaRuntime.Analytics.Contracts
import TracciaRuntime.Semantics.ProductionCompiler

namespace TracciaRuntime.Semantics

open Analytics
open Py

variable {V : Type}

structure SemanticQueryTask (V : Type) where
  id : String
  query : MetricQuery
  outputSchema : Dict String V
  retry : NodeRetryPolicy := {}
  cache : NodeCachePolicy := {}
  budget : NodeBudget := {}
  concurrencyKey : Option String := none

structure SemanticAnalysisPlanFields (V : Type) where
  queries : List (SemanticQueryTask V)
  queries_ne : queries ≠ []
  transformations : List (AnalyticalNode V) := []
  maximumConcurrency : Nat := 4
  maximumConcurrency_range : 1 ≤ maximumConcurrency ∧ maximumConcurrency ≤ 128 := by decide
  maximumNodes : Nat := 100
  maximumNodes_range : 1 ≤ maximumNodes ∧ maximumNodes ≤ 1000 := by decide

namespace SemanticAnalysisPlanFields
variable (d : SemanticAnalysisPlanFields V)

def queryIds : List String := d.queries.map (·.id)

def transformationIds : List String := d.transformations.map (·.id)

/-- `SemanticAnalysisPlan.validate_identifiers`. -/
def validateIdentifiers : Except String Unit :=
  require (d.queryIds ++ d.transformationIds).Nodup "semantic plan node identifiers must be unique"

end SemanticAnalysisPlanFields

structure SemanticAnalysisPlan (V : Type) extends SemanticAnalysisPlanFields V where
  valid : toSemanticAnalysisPlanFields.validateIdentifiers = .ok ()

theorem SemanticAnalysisPlan.nodup (d : SemanticAnalysisPlan V) :
    (d.queryIds ++ d.transformationIds).Nodup :=
  require_eq_ok.1 d.valid

/-- The planner, with the access of its compiler. -/
structure SemanticQueryGraphPlanner (V : Type) where
  access : Access
  /-- `model_dump(mode="json")` -/
  modelDump : CompiledSemanticQuery → V
  /-- the default of `input_schema`, `{"type": "object"}` -/
  inputSchema : Dict String V := []
  /-- `str(exc)` of a validation error with this message -/
  text : String → String := id

namespace SemanticQueryGraphPlanner
variable (planner : SemanticQueryGraphPlanner V) (layer : SemanticLayer)

/-- The node of a task, with its compiled query. -/
def queryNode (task : SemanticQueryTask V) (compiled : CompiledSemanticQuery) :
    AnalyticalNode V where
  id := task.id
  kind := .semanticQuery
  configuration := [("compiled_query", planner.modelDump compiled)]
  inputSchema := planner.inputSchema
  outputSchema := task.outputSchema
  retry := task.retry
  cache := task.cache
  budget := task.budget
  concurrencyKey := task.concurrencyKey
  valid := AnalyticalNode.valid_iff.2 ⟨fun _ hr => by (cases hr), fun h => by (cases h)⟩

/-- `plan`; the graph gets the identifier. -/
def plan (definition : SemanticAnalysisPlan V) (id : String) :
    Except SemanticError (AnalyticalGraph V) := do
  let queryNodes ← definition.queries.mapM fun task =>
    (ProductionSemanticQueryCompiler.compile planner.access layer task.query).map
      (planner.queryNode task)
  let options : AnalyticalGraph.Options := {
    id := id
    maximumConcurrency := definition.maximumConcurrency
    maximumConcurrency_range := definition.maximumConcurrency_range
    maximumNodes := definition.maximumNodes
    maximumNodes_range := definition.maximumNodes_range }
  (AnalyticalGraph.construct options (queryNodes ++ definition.transformations)).mapError
    fun message => .configuration s!"invalid semantic analysis plan: {planner.text message}"

end SemanticQueryGraphPlanner

end TracciaRuntime.Semantics
