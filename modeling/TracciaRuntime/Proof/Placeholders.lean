/-
  The placeholders in the text of a compiled query: `Statement.marks_sql`, the
  text has those of its clauses, in their order, and no others.
-/
import TracciaRuntime.Text.Marks
import TracciaRuntime.Proof.Joins

namespace TracciaRuntime.Semantics

open Py Text

/-! ## Texts without placeholders -/

/-- The text has no `$`. -/
def Quiet (text : String) : Prop := '$' ∉ text.toList

instance (text : String) : Decidable (Quiet text) := inferInstanceAs (Decidable (¬_))

@[simp]
theorem quiet_append {a b : String} : Quiet (a ++ b) ↔ Quiet a ∧ Quiet b := by
  simp [Quiet]

@[simp]
theorem toString_text (s : String) : toString s = s := rfl

theorem Quiet.intercalate {sep : String} {items : List String} (hs : Quiet sep)
    (h : ∀ s ∈ items, Quiet s) : Quiet (sep.intercalate items) := by
  induction items with
  | nil => simp [Quiet]
  | cons s items ih =>
    rw [List.forall_mem_cons] at h
    cases items with
    | nil => simpa using h.1
    | cons t items =>
      rw [String.intercalate_cons_cons]
      simp [h.1, hs, ih h.2]

theorem quiet_toString (n : Nat) : Quiet (toString n) := numeral_quiet n

/-- The expressions of a layer and its join conditions have no `$`. -/
def SemanticLayer.Quiet (layer : SemanticLayer) : Prop :=
  (∀ m ∈ layer.definition.models, (∀ d ∈ m.dimensions, Semantics.Quiet d.expression) ∧
    ∀ x ∈ m.metrics, Semantics.Quiet x.expression ∧ Semantics.Quiet (x.numerator.getD "") ∧
      Semantics.Quiet (x.denominator.getD "")) ∧
  ∀ j ∈ layer.definition.joins, Semantics.Quiet j.sqlOn

/-- Names are quiet. -/
theorem isName_quiet {s : String} (h : isName s = true) : Quiet s := by
  unfold isName at h
  intro hs
  split at h
  · rename_i hnil; rw [hnil] at hs; cases hs
  · rename_i c cs hcons
    rw [hcons] at hs
    simp only [Bool.and_eq_true, List.all_eq_true] at h
    rcases List.mem_cons.1 hs with rfl | hs
    · exact absurd h.1 (by decide)
    · exact absurd (h.2 _ hs) (by decide)

theorem isTable_quiet {s : String} (h : isTable s = true) : Quiet s := by
  unfold isTable at h
  intro hs
  split at h
  · rename_i hnil; rw [hnil] at hs; cases hs
  · rename_i c cs hcons
    rw [hcons] at hs
    simp only [Bool.and_eq_true, List.all_eq_true] at h
    rcases List.mem_cons.1 hs with rfl | hs
    · exact absurd h.1 (by decide)
    · exact absurd (h.2 _ hs) (by decide)

theorem splitDots_quiet {cs : List Char} (h : '$' ∉ cs) : ∀ part ∈ splitDots cs, '$' ∉ part := by
  induction cs with
  | nil => simp [splitDots]
  | cons c cs ih =>
    rw [List.mem_cons, not_or] at h
    specialize ih h.2
    unfold splitDots
    split
    · simpa using ih
    · split
      · simpa using h.1
      · rename_i part parts hparts
        rw [hparts, List.forall_mem_cons] at ih
        rw [List.forall_mem_cons]
        exact ⟨by simp [h.1, ih.1], ih.2⟩

theorem Quiet.identifier {s : String} (h : Quiet s) : Quiet (identifier s) := by
  refine Quiet.intercalate (by decide) fun part hpart => ?_
  obtain ⟨cs, hcs, rfl⟩ := List.mem_map.1 hpart
  simp only [quiet_append]
  refine ⟨⟨by decide, ?_⟩, by decide⟩
  simpa [Quiet] using splitDots_quiet h cs hcs

section
variable {alnum : Char → Bool}

theorem Quiet.qualify {e a : String} (he : Quiet e) (ha : Quiet a) : Quiet (qualify alnum e a) := by
  unfold Semantics.qualify
  dsimp only
  split
  · simp only [quiet_append]
    exact ⟨⟨ha, by decide⟩, he⟩
  · exact he

/-- A column of a quiet layer. -/
structure Column.Quiet (c : Column) : Prop where
  expression : Semantics.Quiet c.dimension.expression
  tableAlias : ∀ a, c.tableAlias = some a → Semantics.Quiet a

theorem Column.Quiet.sql {c : Column} (h : c.Quiet) : Semantics.Quiet (c.expression alnum) := by
  unfold Column.expression inScope
  split
  · exact h.expression
  · rename_i a ha
    exact h.expression.qualify (h.tableAlias a ha)

/-! ## Clauses -/

/-- The placeholder in a text that is quiet around it. -/
theorem marks_around {before after : String} (hb : Quiet before) (ha : Quiet after)
    (hs : Breaks after.toList) (n : Nat) :
    marks (before ++ placeholder n ++ after).toList = [numeral n] := by
  have hp : (placeholder n).toList = '$' :: numeral n := by simp [placeholder, numeral]
  rw [String.toList_append, String.toList_append, hp, List.append_assoc, marks_append_quiet hb,
    List.cons_append, marks_mark hs, marks_quiet ha]

theorem marks_placeholder (n : Nat) : marks (placeholder n).toList = [numeral n] := by
  have hempty : Quiet "" := by decide
  simpa using marks_around hempty hempty (by decide) n

theorem marks_text_quiet {s : String} (h : Quiet s) : marks s.toList = [] := marks_quiet h

/-- As many parameters as the operator takes. -/
def FilterOperator.Takes (o : FilterOperator) (n : Nat) : Prop :=
  (o.takesNull = true → n = 0) ∧ (o.takesNull = false → o.takesTuple = false → n = 1)

theorem MetricFilter.takes (f : MetricFilter) : f.operator.Takes f.value.values.length := by
  obtain ⟨field, o, v, hv⟩ := f
  change o.Takes v.values.length
  revert hv
  cases v <;> cases o <;> simp [FilterOperator.accepts, FilterOperator.Takes,
    FilterOperator.takesNull, FilterOperator.takesTuple, FilterValue.values]

/-- The placeholders of a filter. -/
theorem Clause.marks_filter {g : Bool} {c : Column} {o : FilterOperator} {ns : List Nat}
    (hc : c.Quiet) (hn : o.Takes ns.length) :
    marks ((Clause.filter g c o ns).sql alnum).toList = ns.map numeral := by
  have he : Quiet (c.expression alnum) := hc.sql
  have scalar : ∀ symbol : String, Quiet symbol → ns.length = 1 →
      marks (c.expression alnum ++ " " ++ symbol ++ " " ++ placeholder (ns.headD 0)).toList =
        ns.map numeral := by
    intro symbol hs hlen
    obtain ⟨n, rfl⟩ := List.length_eq_one_iff.1 hlen
    rw [String.toList_append, marks_append_quiet, marks_placeholder]
    · rfl
    · exact quiet_append.2 ⟨quiet_append.2 ⟨quiet_append.2 ⟨he, by decide⟩, hs⟩,
        by decide⟩
  have tuple : ∀ symbol : String, Quiet symbol →
      marks (c.expression alnum ++ " " ++ symbol ++ " (" ++
        ", ".intercalate (ns.map placeholder) ++ ")").toList = ns.map numeral := by
    intro symbol hs
    rw [String.toList_append, marks_append (by decide), marks_text_quiet (s := ")") (by decide),
      List.append_nil, String.toList_append, marks_append_quiet, String.toList_intercalate,
      marks_intercalate (by decide) (by decide) (by decide), List.map_map, List.flatMap_map]
    · simp only [Function.comp_apply, marks_placeholder]
      rw [List.map_eq_flatMap]
    · exact quiet_append.2 ⟨quiet_append.2 ⟨quiet_append.2 ⟨he, by decide⟩, hs⟩,
        by decide⟩
  have none : ∀ symbol : String, Quiet symbol → ns.length = 0 →
      marks (c.expression alnum ++ symbol).toList = ns.map numeral := by
    intro symbol hs hlen
    rw [List.length_eq_zero_iff.1 hlen]
    exact marks_quiet (quiet_append.2 ⟨he, hs⟩)
  cases o with
  | isNull | isNotNull => exact none _ (by decide) (hn.1 rfl)
  | «in» | notIn => exact tuple _ (by decide)
  | eq | ne | gt | gte | lt | lte => exact scalar _ (by decide) (hn.2 rfl rfl)

/-- The point in time of a validity. -/
theorem marks_effectiveTime {before after : String} (hb : Quiet before) (ha : Quiet after)
    (hs : Breaks after.toList) (n : Option Nat) :
    marks (before ++ effectiveTime n ++ after).toList = n.toList.map numeral := by
  cases n with
  | some n => exact marks_around hb ha hs n
  | none => exact marks_quiet (quiet_append.2 ⟨quiet_append.2 ⟨hb, by decide⟩, ha⟩)

/-- The number of parameters of a filter and the table of a snapshot are in order. -/
def Clause.Proper : Clause → Prop
  | filter _ _ o ns => o.Takes ns.length
  | latest _ table => Quiet table
  | _ => True

/-- **The placeholders of a clause** are its parameters. -/
theorem Clause.marks_sql {cl : Clause} (hc : cl.column.Quiet) (hp : cl.Proper) :
    marks (cl.sql alnum).toList = cl.parameters.map numeral := by
  have he : Quiet (cl.column.expression alnum) := hc.sql
  cases cl with
  | filter g c o ns => exact marks_filter hc hp
  | periodStart c n unit =>
    have hs : (Clause.periodStart c n unit).sql alnum = (c.expression alnum ++
        " >= CURRENT_DATE - (") ++ placeholder n ++ (" * INTERVAL '1 " ++ unit.value ++ "')") := by
      simp [Clause.sql, String.append_assoc]
    rw [hs]
    refine marks_around (quiet_append.2 ⟨he, by decide⟩) ?_ ?_ n
    · cases unit <;> decide
    · cases unit <;> decide
  | periodEnd c includeCurrent =>
    refine marks_quiet ?_
    have hs : (Clause.periodEnd c includeCurrent).sql alnum = c.expression alnum ++ (" " ++
        (if includeCurrent then "<=" else "<") ++ " CURRENT_DATE") := by
      simp [Clause.sql, String.append_assoc]
    rw [hs]
    exact quiet_append.2 ⟨he, by cases includeCurrent <;> decide⟩
  | fresh c n =>
    have hs : (Clause.fresh c n).sql alnum = (c.expression alnum ++
        " >= CURRENT_TIMESTAMP - (") ++ placeholder n ++ " * INTERVAL '1 second')" := by
      simp [Clause.sql, String.append_assoc]
    rw [hs]
    exact marks_around (quiet_append.2 ⟨he, by decide⟩) (by decide)
      (by decide) n
  | latest c table =>
    have hs : (Clause.latest c table).sql alnum = c.expression alnum ++ " = (SELECT MAX(s." ++
        c.dimension.expression ++ ") FROM " ++ identifier table ++ " AS s)" := by
      simp [Clause.sql, String.append_assoc]
    rw [hs]
    refine marks_text_quiet ?_
    simp only [quiet_append]
    exact ⟨⟨⟨⟨⟨he, by decide⟩, hc.expression⟩, by decide⟩, Quiet.identifier hp⟩,
      by decide⟩
  | asOf c n =>
    have hs : (Clause.asOf c n).sql alnum =
        (c.expression alnum ++ " <= ") ++ placeholder n ++ "" := by
      simp [Clause.sql, String.append_assoc]
    rw [hs]
    exact marks_around (quiet_append.2 ⟨he, by decide⟩) (by decide)
      (by decide) n
  | validFrom c n =>
    have hs : (Clause.validFrom c n).sql alnum =
        (c.expression alnum ++ " <= ") ++ effectiveTime n ++ "" := by
      simp [Clause.sql, String.append_assoc]
    rw [hs]
    exact marks_effectiveTime (quiet_append.2 ⟨he, by decide⟩) (by decide)
      (by decide) n
  | validTo c n =>
    have hs : (Clause.validTo c n).sql alnum = ("(" ++ c.expression alnum ++ " > ") ++
        effectiveTime n ++ (" OR " ++ c.expression alnum ++ " IS NULL)") := by
      simp [Clause.sql, String.append_assoc]
    rw [hs]
    refine marks_effectiveTime ?_ ?_ ?_ n
    · exact quiet_append.2 ⟨quiet_append.2 ⟨by decide, he⟩, by decide⟩
    · exact quiet_append.2 ⟨quiet_append.2 ⟨by decide, he⟩, by decide⟩
    · rw [String.append_assoc, String.toList_append]
      exact breaks_append (by decide) (by decide)

/-! ## Statements -/

/-- The texts of the layer in a selected metric. -/
structure MetricItem.Quiet (m : MetricItem) : Prop where
  expression : Semantics.Quiet m.metric.expression
  numerator : Semantics.Quiet (m.metric.numerator.getD "")
  denominator : Semantics.Quiet (m.metric.denominator.getD "")
  tableAlias : ∀ a, m.tableAlias = some a → Semantics.Quiet a

structure Source.Quiet (s : Source) : Prop where
  table : Semantics.Quiet s.table
  tableAlias : ∀ a, s.tableAlias = some a → Semantics.Quiet a

/-- The texts of the layer in a statement. -/
structure Statement.Quiet (s : Statement) : Prop where
  dimensions : ∀ g ∈ s.dimensions, g.column.Quiet
  metrics : ∀ m ∈ s.metrics, m.Quiet
  sources : ∀ t ∈ s.sources, t.Quiet
  joins : ∀ j ∈ s.joins, Semantics.Quiet j.sqlOn
  clauses : ∀ cl ∈ s.clauses, cl.column.Quiet ∧ cl.Proper
  orderBy : ∀ o ∈ s.orderBy, Semantics.Quiet o.1

theorem GroupItem.quiet {g : GroupItem} (h : g.column.Quiet) : Quiet (g.expression alnum) := by
  have he : Quiet (g.column.expression alnum) := h.sql
  unfold GroupItem.expression
  split
  · exact he
  · rename_i grain _
    simp only [toString_text, quiet_append]
    exact ⟨⟨⟨⟨by decide, by cases grain <;> decide⟩, by decide⟩, he⟩,
      by decide⟩

theorem Quiet.aggregate {a : Aggregation} {e : String} (h : Quiet e) : Quiet (aggregate a e) := by
  delta Semantics.aggregate
  cases a <;> simp only [toString_text, quiet_append]
  case expression => exact h
  all_goals exact ⟨⟨by decide, h⟩, by decide⟩

theorem metricExpression_quiet {m : MetricDefinition} {a : String} (he : Quiet m.expression)
    (hn : Quiet (m.numerator.getD "")) (hd : Quiet (m.denominator.getD "")) (ha : Quiet a) :
    Quiet (metricExpression alnum m a) := by
  unfold metricExpression
  dsimp only
  have hc : ∀ t, Quiet t → Quiet (if m.nullBehavior = .zero then s!"COALESCE({t}, 0)" else t) := by
    intro t ht
    split
    · simp only [toString_text, quiet_append]
      exact ⟨⟨by decide, ht⟩, by decide⟩
    · exact ht
  refine hc _ ?_
  split
  · simp only [toString_text, quiet_append]
    exact ⟨⟨⟨⟨by decide, hn.qualify ha⟩, by decide⟩, hd.qualify ha⟩,
      by decide⟩
  · simp only [toString_text, quiet_append]
    exact ⟨⟨by decide, he.qualify ha⟩, by decide⟩
  · exact (he.qualify ha).aggregate

theorem MetricItem.Quiet.sql {m : MetricItem} (h : m.Quiet) : Semantics.Quiet (m.expression alnum) := by
  unfold MetricItem.expression
  dsimp only
  have hc : ∀ t, Semantics.Quiet t → Semantics.Quiet
      (if m.contribution then s!"({t}) / NULLIF(SUM({t}) OVER (), 0)" else t) := by
    intro t ht
    split
    · simp only [toString_text, quiet_append]
      exact ⟨⟨⟨⟨by decide, ht⟩, by decide⟩, ht⟩, by decide⟩
    · exact ht
  refine hc _ ?_
  split
  · exact h.expression.aggregate
  · rename_i a ha
    exact metricExpression_quiet h.expression h.numerator h.denominator (h.tableAlias a ha)

theorem Source.Quiet.sql {s : Source} (h : s.Quiet) : Semantics.Quiet s.sql := by
  unfold Source.sql
  refine quiet_append.2 ⟨h.table.identifier, ?_⟩
  split
  · decide
  · rename_i a ha
    exact quiet_append.2 ⟨by decide, h.tableAlias a ha⟩

theorem quiet_part {keyword separator : String} {items : List String} (hk : Quiet keyword)
    (hs : Quiet separator) (h : ∀ s ∈ items, Quiet s) : Quiet (Statement.part keyword separator items) := by
  unfold Statement.part
  split
  · decide
  · exact quiet_append.2 ⟨hk, hs.intercalate h⟩

theorem quiet_join {items : List String} (h : ∀ s ∈ items, Quiet s) : Quiet (String.join items) := by
  intro hc
  rw [String.toList_join, List.mem_flatMap] at hc
  obtain ⟨s, hs, hc⟩ := hc
  exact h s hs hc

/-- A part that is left out or starts with its keyword. -/
theorem breaks_part {keyword separator rest : String} {items : List String}
    (hk : keyword.toList ≠ []) (hb : Breaks keyword.toList) (hr : Breaks rest.toList) :
    Breaks (Statement.part keyword separator items ++ rest).toList := by
  unfold Statement.part
  split
  · simpa using hr
  · rw [String.append_assoc, String.toList_append]
    exact breaks_append hk hb

/-- **The placeholders of a statement** are those of its clauses. -/
theorem Statement.marks_sql {s : Statement} (h : s.Quiet) :
    marks (s.sql alnum).toList = s.clauses.flatMap fun cl => cl.parameters.map numeral := by
  let front := "SELECT " ++ ", ".intercalate (s.selected alnum) ++ " FROM " ++ s.base.sql ++
    String.join (s.joins.map fun j => " LEFT JOIN " ++ j.source.sql ++ " ON " ++ j.sqlOn)
  let back := part " GROUP BY " ", " (s.dimensions.map (·.expression alnum)) ++
    (part " ORDER BY " ", " (s.orderBy.map fun o => identifier o.1 ++ " " ++ o.2.keyword) ++
      (" LIMIT " ++ (toString s.limit ++ ";")))
  have hsql : s.sql alnum =
      front ++ (part " WHERE " " AND " (s.clauses.map (·.sql alnum)) ++ back) := by
    delta Statement.sql
    simp only [front, back, String.append_assoc]
  have hfront : Semantics.Quiet front := by
    simp only [front, quiet_append]
    refine ⟨⟨⟨⟨by decide, Quiet.intercalate (by decide) fun t ht => ?_⟩,
      by decide⟩, ?_⟩, quiet_join fun t ht => ?_⟩
    · rcases List.mem_append.1 ht with ht | ht
      · obtain ⟨g, hg, rfl⟩ := List.mem_map.1 ht
        simp only [quiet_append]
        exact ⟨⟨GroupItem.quiet (h.dimensions g hg), by decide⟩,
          (isName_quiet g.column.dimension.valid).identifier⟩
      · obtain ⟨m, hm, rfl⟩ := List.mem_map.1 ht
        simp only [quiet_append]
        exact ⟨⟨(h.metrics m hm).sql, by decide⟩, (isName_quiet m.metric.named).identifier⟩
    · exact (h.sources _ List.mem_cons_self).sql
    · obtain ⟨j, hj, rfl⟩ := List.mem_map.1 ht
      simp only [quiet_append]
      exact ⟨⟨⟨by decide, (h.sources _ (List.mem_cons_of_mem _ (List.mem_map_of_mem hj))).sql⟩,
        by decide⟩, h.joins j hj⟩
  have hback : Semantics.Quiet back := by
    simp only [back, quiet_append]
    refine ⟨quiet_part (by decide) (by decide) fun t ht => ?_,
      quiet_part (by decide) (by decide) fun t ht => ?_, by decide,
      quiet_toString _, by decide⟩
    · obtain ⟨g, hg, rfl⟩ := List.mem_map.1 ht
      exact GroupItem.quiet (h.dimensions g hg)
    · obtain ⟨o, ho, rfl⟩ := List.mem_map.1 ht
      simp only [quiet_append]
      exact ⟨⟨(h.orderBy o ho).identifier, by decide⟩, by cases o.2 <;> decide⟩
  have hbreak : Breaks back.toList := by
    refine breaks_part (by decide) (by decide)
      (breaks_part (by decide) (by decide) ?_)
    rw [String.toList_append]
    exact breaks_append (by decide) (by decide)
  have hclauses : marks (part " WHERE " " AND " (s.clauses.map (·.sql alnum))).toList =
      s.clauses.flatMap fun cl => cl.parameters.map numeral := by
    unfold part
    split
    · rename_i hnil
      rw [List.map_eq_nil_iff.1 hnil]
      rfl
    · rw [String.toList_append, marks_append_quiet (by decide), String.toList_intercalate,
        marks_intercalate (by decide) (by decide) (by decide), List.map_map, List.flatMap_map]
      exact List.flatMap_congr fun cl hcl => Clause.marks_sql (h.clauses cl hcl).1 (h.clauses cl hcl).2
  rw [hsql, String.toList_append, marks_append_quiet hfront, String.toList_append,
    marks_append hbreak, marks_quiet hback, List.append_nil, hclauses]

end

/-! ## Compiled statements -/

section
variable {layer : SemanticLayer}

theorem SemanticLayer.Quiet.dimension (h : layer.Quiet) {n : String}
    {x : String × DimensionDefinition} (hx : layer.dimension n = .ok x) :
    Semantics.Quiet x.2.expression := by
  obtain ⟨m, hm, -, hd⟩ := SemanticLayer.dimension_mem hx
  exact (h.1 m hm).1 _ hd

theorem SemanticLayer.Quiet.metric (h : layer.Quiet) {n : String} {x : String × MetricDefinition}
    (hx : layer.metric n = .ok x) {a : Option String} (ha : ∀ t, a = some t → Semantics.Quiet t)
    (b : Bool) : (MetricItem.mk x.2 a b).Quiet := by
  obtain ⟨m, hm, -, hd⟩ := SemanticLayer.metric_mem hx
  obtain ⟨h₁, h₂, h₃⟩ := (h.1 m hm).2 _ hd
  exact ⟨h₁, h₂, h₃, ha⟩

/-- What a clause stands for decides the number of its parameters. -/
theorem Stands.quiet {S : Setting} {cl : Clause} {vs ps : List Value} (hl : S.layer.Quiet)
    (ha : ∀ x a, (S.column x).tableAlias = some a → Semantics.Quiet a)
    (hd : ∀ x, (S.column x).dimension = x.2) (h : Stands S cl vs)
    (hb : cl.bound ps = vs.map some) : cl.column.Quiet ∧ cl.Proper := by
  have column : ∀ {n x}, S.layer.dimension n = .ok x → (S.column x).Quiet := fun hx =>
    ⟨by rw [hd]; exact hl.dimension hx, ha _⟩
  cases h with
  | @filter g f x ns _ hx _ =>
    refine ⟨column hx, ?_⟩
    have hlen := congrArg List.length hb
    simp only [Clause.bound, Clause.parameters, List.length_map] at hlen
    change f.operator.Takes ns.length
    rw [hlen]
    exact f.takes
  | latest _ _ hx _ hm _ => exact ⟨column hx, isTable_quiet (SemanticModelDefinition.named _).2⟩
  | periodStart _ hx | periodEnd _ hx | fresh _ _ hx | asOf _ _ hx | validFrom _ hx
  | validTo _ hx => exact ⟨column hx, trivial⟩

/-- The names in the ORDER BY list are those of metrics and dimensions. -/
theorem order_quiet {query : MetricQuery} {metrics : List (String × MetricDefinition)}
    {dimensions : List (String × DimensionDefinition)} {orderBy : List (String × SortDirection)}
    (h : layer.order query metrics dimensions = .ok orderBy) :
    ∀ o ∈ orderBy, Semantics.Quiet o.1 := by
  intro o ho
  obtain ⟨sort, -, hsort⟩ := exists_of_mem_right (mapM_eq_ok.1 h) ho
  simp only [bind_eq_ok] at hsort
  obtain ⟨name, hname, _, -, hsort⟩ := hsort
  cases hsort
  unfold SemanticLayer.selectedName at hname
  split at hname
  · cases hname
    exact isName_quiet (DimensionDefinition.valid _)
  · obtain ⟨x, -, rfl⟩ := map_eq_ok.1 hname
    exact isName_quiet x.2.named

end

theorem SemanticQueryCompiler.quiet {layer : SemanticLayer} {query : MetricQuery}
    {c : CompiledSemanticQuery} {metrics : List (String × MetricDefinition)}
    {dimensions : List (String × DimensionDefinition)} {model : SemanticModelDefinition}
    {p : Predicates} {filters : List (Bool × MetricFilter)} (hl : layer.Quiet)
    (hres : Resolved layer query metrics dimensions)
    (h : CompiledModel layer query metrics dimensions model p c)
    (hp : p.Sound (setting layer query model filters)) : c.statement.Quiet := by
  refine ⟨fun g hg => ?_, fun m hm => ?_, fun t ht => ?_, fun j hj => ?_, fun cl hcl => ?_,
    order_quiet h.orderBy⟩
  · rw [h.dimension_items] at hg
    obtain ⟨x, hx, rfl⟩ := List.mem_map.1 hg
    obtain ⟨n, -, hn⟩ := exists_of_mem_right hres.dimensions hx
    exact ⟨hl.dimension hn, fun a ha => by cases ha⟩
  · rw [h.metric_items] at hm
    obtain ⟨x, hx, rfl⟩ := List.mem_map.1 hm
    obtain ⟨n, -, hn⟩ := exists_of_mem_right hres.metrics hx
    exact hl.metric hn (fun a ha => by cases ha) _
  · rw [Statement.sources, h.source, h.no_joins, List.map_nil, List.mem_singleton] at ht
    rw [ht]
    exact ⟨isTable_quiet model.named.2, fun a ha => by cases ha⟩
  · rw [h.no_joins] at hj
    cases hj
  · rw [h.clauses] at hcl
    obtain ⟨vs, hst, hb⟩ := hp.stands cl hcl
    exact hst.quiet hl (fun x a ha => by cases ha) (fun x => rfl) hb

theorem ProductionSemanticQueryCompiler.quiet_tableAlias (names : List String) (n : String) :
    Quiet (tableAlias names n) := by
  unfold tableAlias
  simp only [toString_text, quiet_append]
  exact ⟨by decide, quiet_toString _⟩

theorem ProductionSemanticQueryCompiler.Joined.quiet {access : Access} {layer : SemanticLayer}
    {query : MetricQuery} {c : CompiledSemanticQuery} {metrics : List (String × MetricDefinition)}
    {dimensions : List (String × DimensionDefinition)} {base : SemanticModelDefinition}
    {joins : List JoinDefinition} {p : Predicates} {models : List SemanticModelDefinition}
    (hl : layer.Quiet) (hres : Resolved layer query metrics dimensions)
    (h : Joined access layer query metrics dimensions (modelNames metrics dimensions) base joins p c)
    (hp : p.Sound (setting layer (modelNames metrics dimensions) models query)) :
    c.statement.Quiet := by
  refine ⟨fun g hg => ?_, fun m hm => ?_, fun t ht => ?_, fun j hj => ?_, fun cl hcl => ?_,
    order_quiet h.orderBy⟩
  · rw [h.dimension_items] at hg
    obtain ⟨x, hx, rfl⟩ := List.mem_map.1 hg
    obtain ⟨n, -, hn⟩ := exists_of_mem_right hres.dimensions hx
    refine ⟨hl.dimension hn, fun a ha => ?_⟩
    cases ha; exact quiet_tableAlias _ _
  · rw [h.metric_items] at hm
    obtain ⟨x, hx, rfl⟩ := List.mem_map.1 hm
    obtain ⟨n, -, hn⟩ := exists_of_mem_right hres.metrics hx
    refine hl.metric hn (fun a ha => ?_) _
    cases ha; exact quiet_tableAlias _ _
  · obtain ⟨rights, -, -, hsources⟩ := h.sources hres
    rw [hsources] at ht
    obtain ⟨m, -, rfl⟩ := List.mem_map.1 ht
    refine ⟨isTable_quiet m.named.2, fun a ha => ?_⟩
    cases ha; exact quiet_tableAlias _ _
  · obtain ⟨j', hj', -, m, -, -, rfl⟩ := exists_of_mem_right (h.emit_right) hj
    exact hl.2 j' ((joinPath_path (Nat.le_refl _) h.path).mem j' hj')
  · rw [h.clauses] at hcl
    obtain ⟨vs, hst, hb⟩ := hp.stands cl hcl
    refine hst.quiet hl (fun x a ha => ?_) (fun x => rfl) hb
    cases ha; exact quiet_tableAlias _ _

end TracciaRuntime.Semantics
