/-
  Traccia Runtime formalization — the contracts of the semantic layer
  (`semantics/contracts.py`).

  A definition carries what its validators check, so that an invalid one cannot
  be built.  Labels, descriptions, owners and the other texts that neither the
  layer nor the compilers read are left out.
-/
import TracciaRuntime.Py.Dict
import Mathlib.Data.Rat.Defs
import Mathlib.Data.Finset.Insert

namespace TracciaRuntime.Semantics

open Py

inductive Certification where
  | draft | verified | certified
  deriving DecidableEq

def Certification.value : Certification → String
  | draft => "draft"
  | verified => "verified"
  | certified => "certified"

/-- `_CERTIFICATION_RANK`. -/
def Certification.rank : Certification → Nat
  | draft => 0
  | verified => 1
  | certified => 2

inductive Sensitivity where
  | «public» | «internal» | confidential | restricted
  deriving DecidableEq

namespace Sensitivity

def value : Sensitivity → String
  | «public» => "public"
  | «internal» => "internal"
  | confidential => "confidential"
  | restricted => "restricted"

/-- `_SENSITIVITY_RANK`. -/
def rank : Sensitivity → Nat
  | «public» => 0
  | «internal» => 1
  | confidential => 2
  | restricted => 3

end Sensitivity

inductive Aggregation where
  | sum | avg | min | max | count | countDistinct | expression
  deriving DecidableEq

inductive MetricBehavior where
  | additive | semiAdditive | nonAdditive | ratio | derived
  deriving DecidableEq

inductive NullBehavior where
  | preserve | zero | exclude
  deriving DecidableEq

inductive TimeGrain where
  | day | week | month | quarter | year
  deriving DecidableEq

def TimeGrain.value : TimeGrain → String
  | day => "day"
  | week => "week"
  | month => "month"
  | quarter => "quarter"
  | year => "year"

inductive AnalyticalOperation where
  | none | contribution | concentration | rank | cohort | funnel
  deriving DecidableEq

def AnalyticalOperation.value : AnalyticalOperation → String
  | none => "none"
  | contribution => "contribution"
  | concentration => "concentration"
  | rank => "rank"
  | cohort => "cohort"
  | funnel => "funnel"

inductive FilterOperator where
  | eq | ne | gt | gte | lt | lte | «in» | notIn | isNull | isNotNull
  deriving DecidableEq

namespace FilterOperator

def takesNull : FilterOperator → Bool
  | isNull | isNotNull => true
  | _ => false

def takesTuple : FilterOperator → Bool
  | «in» | notIn => true
  | _ => false

end FilterOperator

inductive SortDirection where
  | asc | desc
  deriving DecidableEq

inductive Relationship where
  | oneToOne | oneToMany | manyToOne
  deriving DecidableEq

def Relationship.value : Relationship → String
  | oneToOne => "one_to_one"
  | oneToMany => "one_to_many"
  | manyToOne => "many_to_one"

inductive SnapshotMode where
  | latest | asOf | sameDtd
  deriving DecidableEq

/-! ## Names -/

def isLetter (c : Char) : Bool := 'a' ≤ c && c ≤ 'z'

def isDigit (c : Char) : Bool := '0' ≤ c && c ≤ '9'

/-- The pattern `^[a-z][a-z0-9_]*$`. -/
def isName (s : String) : Bool :=
  match s.toList with
  | [] => false
  | c :: cs => isLetter c && cs.all fun c => isLetter c || isDigit c || c = '_'

/-- The pattern `^[a-zA-Z_][a-zA-Z0-9_.]*$`. -/
def isTable (s : String) : Bool :=
  let letter (c : Char) := isLetter c || ('A' ≤ c && c ≤ 'Z') || c = '_'
  match s.toList with
  | [] => false
  | c :: cs => letter c && cs.all fun c => letter c || isDigit c || c = '.'

/-! ## Values and filters -/

/-- `str | int | float | bool`; floats are finite. -/
inductive Value where
  | str (s : String)
  | int (n : Int)
  | float (q : ℚ)
  | bool (b : Bool)
  deriving DecidableEq

/-- What a value is compared by: truth values and integers are numbers. -/
def Value.content : Value → String ⊕ ℚ
  | str s => .inl s
  | int n => .inr n
  | float q => .inr q
  | bool b => .inr (if b then 1 else 0)

inductive FilterValue where
  | null
  | scalar (v : Value)
  | tuple (vs : List Value)
  deriving DecidableEq

namespace FilterValue

def values : FilterValue → List Value
  | null => []
  | scalar v => [v]
  | tuple vs => vs

/-- `a == b`. -/
def equals : FilterValue → FilterValue → Bool
  | null, null => true
  | scalar a, scalar b => a.content = b.content
  | tuple as, tuple bs => as.map Value.content = bs.map Value.content
  | _, _ => false

end FilterValue

/-- `MetricFilter.validate_value`. -/
def FilterOperator.accepts (o : FilterOperator) : FilterValue → Bool
  | .null => o.takesNull
  | .scalar _ => !o.takesNull && !o.takesTuple
  | .tuple vs => o.takesTuple && !vs.isEmpty

structure MetricFilter where
  field : String
  operator : FilterOperator := .eq
  value : FilterValue := .null
  valid : operator.accepts value = true := by decide
  deriving DecidableEq

/-- The same operator and an equal value. -/
def MetricFilter.agrees (f g : MetricFilter) : Bool :=
  f.operator = g.operator && f.value.equals g.value

/-- The operator determines the form of the value, so that the contents decide. -/
theorem MetricFilter.agrees_iff {f g : MetricFilter} : f.agrees g = true ↔
    f.operator = g.operator ∧ f.value.values.map Value.content = g.value.values.map Value.content := by
  obtain ⟨field, o, v, hv⟩ := f
  obtain ⟨field', o', v', hv'⟩ := g
  simp only [agrees, Bool.and_eq_true, decide_eq_true_eq]
  refine and_congr_right fun ho => ?_
  subst ho
  cases v <;> cases v' <;>
    simp_all [FilterValue.equals, FilterValue.values, FilterOperator.accepts]

/-! ## Dimensions, metrics and models -/

structure DimensionDefinition where
  name : String
  expression : String
  synonyms : List String := []
  isTime : Bool := false
  sensitivity : Sensitivity := .internal
  authorizationTags : List String := []
  lineage : List String := []
  valid : isName name = true := by decide
  deriving DecidableEq

structure MetricDefinition where
  name : String
  expression : String
  aggregation : Aggregation
  synonyms : List String := []
  allowedDimensions : List String := []
  certification : Certification := .draft
  sensitivity : Sensitivity := .internal
  authorizationTags : List String := []
  behavior : MetricBehavior := .additive
  numerator : Option String := none
  denominator : Option String := none
  semiAdditiveDimensions : List String := []
  nullBehavior : NullBehavior := .preserve
  lineage : List String := []
  named : isName name = true := by decide
  /-- `validate_behavior` -/
  valid : (behavior = .ratio → numerator.getD "" ≠ "" ∧ denominator.getD "" ≠ "") ∧
    (behavior = .semiAdditive → semiAdditiveDimensions ≠ []) := by decide
  deriving DecidableEq

/-- The parts of an additive metric may be left out. -/
theorem MetricDefinition.additive_valid :
    (MetricBehavior.additive = .ratio →
      (none : Option String).getD "" ≠ "" ∧ (none : Option String).getD "" ≠ "") ∧
    (MetricBehavior.additive = .semiAdditive → ([] : List String) ≠ []) := by decide

structure FreshnessPolicy where
  field : String
  maxAgeSeconds : Nat
  positive : 0 < maxAgeSeconds := by decide
  deriving DecidableEq

/-- `SemanticModelDefinition`, with what `validate_names` checks. -/
structure SemanticModelDefinition where
  name : String
  table : String
  dimensions : List DimensionDefinition
  metrics : List MetricDefinition
  certification : Certification := .draft
  sensitivity : Sensitivity := .internal
  authorizationTags : List String := []
  defaultFilters : List MetricFilter := []
  requiredFilterDimensions : List String := []
  freshness : Option FreshnessPolicy := none
  validFromDimension : Option String := none
  validToDimension : Option String := none
  lateArrivalSeconds : Nat := 0
  named : isName name = true ∧ isTable table = true := by decide
  distinct : (dimensions.map (·.name)).Nodup ∧ (metrics.map (·.name)).Nodup := by decide
  filtered : (∀ f ∈ defaultFilters, f.field ∈ dimensions.map (·.name)) ∧
    (defaultFilters.map (·.field)).Nodup ∧
    ∀ n ∈ requiredFilterDimensions, n ∈ dimensions.map (·.name) := by decide
  fresh : ∀ p ∈ freshness, p.field ∈ dimensions.map (·.name) := by decide
  dated : ∀ n ∈ [validFromDimension, validToDimension], n.getD "" ≠ "" →
    n.getD "" ∈ dimensions.map (·.name) := by decide
  deriving DecidableEq

structure JoinDefinition where
  name : String
  leftModel : String
  rightModel : String
  relationship : Relationship
  sqlOn : String
  fanoutSafe : Bool := false
  authorizationTags : List String := []
  deriving DecidableEq

/-- `SemanticLayerDefinition`, with what `validate_graph` checks. -/
structure SemanticLayerDefinition where
  name : String
  version : String
  models : List SemanticModelDefinition
  joins : List JoinDefinition := []
  distinct : (models.map (·.name)).Nodup ∧ (joins.map (·.name)).Nodup := by decide
  known : (∀ m ∈ models, ∀ x ∈ m.metrics, ∀ n ∈ x.allowedDimensions,
      n ∈ models.flatMap fun m => m.dimensions.map (·.name)) ∧
    ∀ j ∈ joins, j.leftModel ∈ models.map (·.name) ∧ j.rightModel ∈ models.map (·.name) := by
      decide

/-! ## Queries -/

structure RelativePeriod where
  field : String
  unit : TimeGrain
  count : Nat
  includeCurrent : Bool := false
  deriving DecidableEq

structure SnapshotSelection where
  field : String
  mode : SnapshotMode := .latest
  asOf : Option String := none
  valid : mode = .asOf → asOf.getD "" ≠ "" := by decide
  deriving DecidableEq

structure MetricSort where
  field : String
  direction : SortDirection := .asc
  deriving DecidableEq

/-- `MetricQuery`; of the period comparison and the rolling windows only their presence
    counts. -/
structure MetricQuery where
  metrics : List String
  dimensions : List String := []
  timeRange : Option String := none
  filters : List MetricFilter := []
  orderBy : List MetricSort := []
  limit : Nat := 500
  timeGrain : Option TimeGrain := none
  relativePeriod : Option RelativePeriod := none
  comparison : Bool := false
  rollingWindows : Bool := false
  snapshot : Option SnapshotSelection := none
  operation : AnalyticalOperation := .none
  cohortDimensions : List String := []
  funnelMetrics : List String := []
  nonempty : metrics ≠ [] := by decide
  deriving DecidableEq

/-- The errors of the semantic layer and of its compilers. -/
inductive SemanticError where
  | configuration (message : String)
  | notFound (message : String)
  | keyError (key : String)
  deriving DecidableEq

end TracciaRuntime.Semantics
