/-
  Traccia Runtime formalization — the SELECT statements that the semantic
  compilers write.

  The compilers put a statement together from lists of texts.  Here the parts
  are kept as data, with the dimension that each text refers to, and
  `Statement.sql` is the text.  `alnum` is Python's `str.isalnum` on one
  character.
-/
import TracciaRuntime.Semantics.Contracts

namespace TracciaRuntime.Semantics

variable (alnum : Char → Bool)

/-- The pieces of `value.split(".")`. -/
def splitDots : List Char → List (List Char)
  | [] => [[]]
  | c :: cs =>
    if c = '.' then [] :: splitDots cs
    else match splitDots cs with
      | [] => [[c]]
      | part :: parts => (c :: part) :: parts

/-- `_identifier`. -/
def identifier (value : String) : String :=
  ".".intercalate ((splitDots value.toList).map fun part => "\"" ++ String.ofList part ++ "\"")

/-- `_expression`: a plain column gets the alias of its table. -/
def qualify (expression tableAlias : String) : String :=
  let plain := expression.toList.filter (· ≠ '_')
  if plain ≠ [] ∧ plain.all alnum then tableAlias ++ "." ++ expression else expression

/-- A reference to a dimension of a model, by the alias of the model if it has one. -/
structure Column where
  model : String
  dimension : DimensionDefinition
  tableAlias : Option String
  deriving DecidableEq

/-- An expression in the scope of an alias. -/
def inScope (tableAlias : Option String) (expression : String) : String :=
  match tableAlias with
  | none => expression
  | some a => qualify alnum expression a

def Column.expression (c : Column) : String := inScope alnum c.tableAlias c.dimension.expression

/-- A selected dimension, by which the rows are grouped. -/
structure GroupItem where
  column : Column
  grain : Option TimeGrain
  deriving DecidableEq

/-- The expression of a selected dimension, with `_time_bucket`. -/
def GroupItem.expression (g : GroupItem) : String :=
  match g.grain with
  | none => g.column.expression alnum
  | some grain => s!"DATE_TRUNC('{grain.value}', {g.column.expression alnum})"

/-- `_aggregate`. -/
def aggregate (aggregation : Aggregation) (expression : String) : String :=
  match aggregation with
  | .expression => expression
  | .countDistinct => s!"COUNT(DISTINCT {expression})"
  | .sum => s!"SUM({expression})"
  | .avg => s!"AVG({expression})"
  | .min => s!"MIN({expression})"
  | .max => s!"MAX({expression})"
  | .count => s!"COUNT({expression})"

/-- A selected metric; the one-model compiler gives it no alias. -/
structure MetricItem where
  metric : MetricDefinition
  tableAlias : Option String
  contribution : Bool := false
  deriving DecidableEq

/-- `_metric_expression`. -/
def metricExpression (metric : MetricDefinition) (tableAlias : String) : String :=
  let expression := qualify alnum metric.expression tableAlias
  let compiled := match metric.behavior with
    | .ratio =>
      let numerator := qualify alnum (metric.numerator.getD "") tableAlias
      let denominator := qualify alnum (metric.denominator.getD "") tableAlias
      s!"SUM({numerator}) / NULLIF(SUM({denominator}), 0)"
    | .nonAdditive => s!"MAX({expression})"
    | _ => aggregate metric.aggregation expression
  if metric.nullBehavior = .zero then s!"COALESCE({compiled}, 0)" else compiled

def MetricItem.expression (m : MetricItem) : String :=
  let expression := match m.tableAlias with
    | none => aggregate m.metric.aggregation m.metric.expression
    | some a => metricExpression alnum m.metric a
  if m.contribution then s!"({expression}) / NULLIF(SUM({expression}) OVER (), 0)"
  else expression

/-! ## The WHERE clause -/

/-- The conjuncts of a WHERE clause, with the numbers of their parameters. -/
inductive Clause where
  /-- a filter of the query or, if `governed`, a default filter of a model -/
  | filter (governed : Bool) (column : Column) (operator : FilterOperator) (parameters : List Nat)
  | periodStart (column : Column) (parameter : Nat) (unit : TimeGrain)
  | periodEnd (column : Column) (includeCurrent : Bool)
  | fresh (column : Column) (parameter : Nat)
  | latest (column : Column) (table : String)
  | asOf (column : Column) (parameter : Nat)
  | validFrom (column : Column) (parameter : Option Nat)
  | validTo (column : Column) (parameter : Option Nat)
  deriving DecidableEq

/-- A positional parameter. -/
def placeholder (n : Nat) : String := "$" ++ toString n

/-- The comparison symbols of `_filter`. -/
def FilterOperator.symbol : FilterOperator → String
  | .eq => "="
  | .ne => "!="
  | .gt => ">"
  | .gte => ">="
  | .lt => "<"
  | .lte => "<="
  | .in => "IN"
  | .notIn => "NOT IN"
  | .isNull => "IS NULL"
  | .isNotNull => "IS NOT NULL"

/-- The point in time at which a record must be valid. -/
def effectiveTime : Option Nat → String
  | none => "CURRENT_TIMESTAMP"
  | some n => placeholder n

namespace Clause

def column : Clause → Column
  | filter _ c .. | periodStart c .. | periodEnd c .. | fresh c .. | latest c .. | asOf c ..
  | validFrom c .. | validTo c .. => c

/-- The numbers of the parameters of a clause. -/
def parameters : Clause → List Nat
  | filter _ _ _ ps => ps
  | periodStart _ p _ | fresh _ p | asOf _ p => [p]
  | validFrom _ p | validTo _ p => p.toList
  | periodEnd .. | latest .. => []

/-- The text of a conjunct. -/
def sql : Clause → String
  | filter _ c operator ps =>
    let expression := c.expression alnum
    match operator with
    | .isNull => s!"{expression} IS NULL"
    | .isNotNull => s!"{expression} IS NOT NULL"
    | .in | .notIn =>
      expression ++ " " ++ operator.symbol ++ " (" ++ ", ".intercalate (ps.map placeholder) ++ ")"
    | _ => expression ++ " " ++ operator.symbol ++ " " ++ placeholder (ps.headD 0)
  | periodStart c p unit =>
    s!"{c.expression alnum} >= CURRENT_DATE - ({placeholder p} * INTERVAL '1 {unit.value}')"
  | periodEnd c includeCurrent =>
    let comparator := if includeCurrent then "<=" else "<"
    s!"{c.expression alnum} {comparator} CURRENT_DATE"
  | fresh c p =>
    s!"{c.expression alnum} >= CURRENT_TIMESTAMP - ({placeholder p} * INTERVAL '1 second')"
  | latest c table =>
    s!"{c.expression alnum} = (SELECT MAX(s.{c.dimension.expression}) FROM " ++
      s!"{identifier table} AS s)"
  | asOf c p => s!"{c.expression alnum} <= {placeholder p}"
  | validFrom c p => s!"{c.expression alnum} <= {effectiveTime p}"
  | validTo c p =>
    s!"({c.expression alnum} > {effectiveTime p} OR {c.expression alnum} IS NULL)"

end Clause

/-! ## Statements -/

/-- A table in the FROM list, under its alias. -/
structure Source where
  table : String
  tableAlias : Option String
  deriving DecidableEq

/-- A joined table with its condition. -/
structure JoinItem where
  source : Source
  sqlOn : String
  deriving DecidableEq

structure Statement where
  dimensions : List GroupItem
  metrics : List MetricItem
  base : Source
  joins : List JoinItem := []
  clauses : List Clause
  orderBy : List (String × SortDirection)
  limit : Nat
  deriving DecidableEq

def Source.sql (s : Source) : String :=
  identifier s.table ++ match s.tableAlias with
    | none => ""
    | some a => " AS " ++ a

def SortDirection.keyword : SortDirection → String
  | .asc => "ASC"
  | .desc => "DESC"

namespace Statement
variable (s : Statement)

def selected : List String :=
  (s.dimensions.map fun g => g.expression alnum ++ " AS " ++ identifier g.column.dimension.name) ++
    s.metrics.map fun m => m.expression alnum ++ " AS " ++ identifier m.metric.name

/-- A part of a statement that is left out when it is empty. -/
def part (keyword separator : String) (items : List String) : String :=
  if items = [] then "" else keyword ++ separator.intercalate items

/-- The text of a statement. -/
def sql : String :=
  "SELECT " ++ ", ".intercalate (s.selected alnum) ++ " FROM " ++ s.base.sql ++
    String.join (s.joins.map fun j => " LEFT JOIN " ++ j.source.sql ++ " ON " ++ j.sqlOn) ++
    part " WHERE " " AND " (s.clauses.map (·.sql alnum)) ++
    part " GROUP BY " ", " (s.dimensions.map (·.expression alnum)) ++
    part " ORDER BY " ", " (s.orderBy.map fun o => identifier o.1 ++ " " ++ o.2.keyword) ++
    " LIMIT " ++ toString s.limit ++ ";"

/-- The tables a statement reads, the base table first. -/
def sources : List Source := s.base :: s.joins.map (·.source)

end Statement

structure CompiledSemanticQuery where
  statement : Statement
  parameters : List Value
  semanticLayer : String
  semanticLayerVersion : String
  semanticModel : String
  selectedModels : List String := []
  joins : List String := []
  lineage : Py.Dict String (List String) := []
  explanation : List String := []
  deriving DecidableEq

/-- The text that is sent to the database. -/
def CompiledSemanticQuery.sql (c : CompiledSemanticQuery) : String := c.statement.sql alnum

end TracciaRuntime.Semantics
