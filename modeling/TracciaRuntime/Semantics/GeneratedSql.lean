/-
  Traccia Runtime formalization — the validation of generated SQL (`semantics/layer.py`):
  `SemanticLayer.validate_generated_sql` and the searches that it makes.
-/
import TracciaRuntime.Semantics.Layer
import TracciaRuntime.Text.Contexts

namespace TracciaRuntime.Semantics

open Py Text

/-- `s.lower()`; a letter beyond ASCII stands for its lower case. -/
def lowerText (s : String) : List Char := s.toList.flatMap lowered

/-- `re.sub(r'"', "", sql.lower())`. -/
def normalized (sql : String) : List Char := (lowerText sql).filter (· ≠ '"')

/-- `re.fullmatch(r"[a-zA-Z_][a-zA-Z0-9_]*", expression)`. -/
def isField (expression : String) : Bool :=
  let letter (c : Char) := isLetter c || ('A' ≤ c && c ≤ 'Z') || c = '_'
  match expression.toList with
  | [] => false
  | c :: cs => letter c && cs.all fun c => letter c || isDigit c

section
variable (u : Unicode)

/-- `\bword\b`. -/
def wholeWord (w : List Char) : Regex :=
  .seq (wordBoundary u) (.seq (.word w) (wordBoundary u))

/-- `(?:\b[a-z_][a-z0-9_]*\.)?\bexpression\b`. -/
def fieldPattern (expression : String) : Regex :=
  let qualifier := .seq (wordBoundary u) (.seq (.char fun c => isLetter c || c = '_')
    (.seq (.star (.char fun c => isLetter c || isDigit c || c = '_')) (.char (· = '.'))))
  .seq (.opt qualifier) (wholeWord u (lowerText expression))

/-- `(?:=|<>|!=|<=|>=|<|>|\bbetween\b|\bin\b|\bis\b)`. -/
def operatorPattern : Regex :=
  .anyOf (["=", "<>", "!=", "<=", ">=", "<", ">"].map (fun s => .word s.toList) ++
    ["between", "in", "is"].map fun s => wholeWord u s.toList)

/-- `_has_filter_predicate`. -/
def hasFilterPredicate (sql : List Char) (expression : String) : Bool :=
  isField expression && Regex.search (.seq (fieldPattern u expression)
    (.seq (.star (.char isSpace)) (operatorPattern u))) sql

/-- `_has_boolean_filter`. -/
def hasBooleanFilter (sql : List Char) (expression : String) (value : Bool) : Bool :=
  isField expression && Regex.search (.seq (fieldPattern u expression)
    (.seq (.star (.char isSpace)) (.seq (.alt (.word ['=']) (wholeWord u "is".toList))
      (.seq (.star (.char isSpace))
        (.seq (.word (if value then "true" else "false").toList) (wordBoundary u)))))) sql

/-- `dimensions_by_name[name]`. -/
def SemanticModelDefinition.dimensionNamed (model : SemanticModelDefinition) (name : String) :
    Except SemanticError DimensionDefinition :=
  match model.dimensions.find? fun d => d.name = name with
  | some d => .ok d
  | none => .error (.keyError name)

namespace SemanticModelDefinition
variable (model : SemanticModelDefinition) (sql : List Char)

/-- The checks of `validate_generated_sql` for one required filter. -/
def checkRequired (required : String) : Except SemanticError Unit := do
  let dimension ← model.dimensionNamed required
  require (hasFilterPredicate u sql dimension.expression) (.configuration
    (s!"generated SQL for semantic model '{model.name}' requires a " ++
      s!"predicate on '{required}'"))

/-- The checks of `validate_generated_sql` for one default filter. -/
def checkDefault (governedFilter : MetricFilter) : Except SemanticError Unit := do
  let dimension ← model.dimensionNamed governedFilter.field
  match governedFilter.operator, governedFilter.value with
  | .eq, .scalar (.bool value) =>
    let shown := if value then "True" else "False"
    require (hasBooleanFilter u sql dimension.expression value) (.configuration
      (s!"generated SQL for semantic model '{model.name}' must enforce " ++
        s!"{governedFilter.field}={shown}"))
  | _, _ => .error (.configuration
      ("generated-SQL validation supports boolean equality defaults only; " ++
        s!"model '{model.name}' must use the semantic compiler for other defaults"))

/-- The checks of `validate_generated_sql` for one model. -/
def checkGenerated : Except SemanticError Unit := do
  require (Regex.search (wholeWord u (lowerText model.table)) sql) (.configuration
    (s!"generated SQL for semantic model '{model.name}' must reference " ++
      s!"'{model.table}'"))
  model.requiredFilterDimensions.forM (model.checkRequired u sql)
  model.defaultFilters.forM (model.checkDefault u sql)

end SemanticModelDefinition

/-- `validate_generated_sql`. -/
def SemanticLayer.validateGeneratedSql (layer : SemanticLayer) (metrics dimensions : List String)
    (sql : String) : Except SemanticError Unit := do
  let resolvedMetrics ← metrics.mapM layer.metric
  let resolvedDimensions ← dimensions.mapM layer.dimension
  (layer.modelsNamed (resolvedMetrics.map (·.1) ++ resolvedDimensions.map (·.1))).forM
    (·.checkGenerated u (normalized sql))

end

end TracciaRuntime.Semantics
