/-
  What the validation of generated SQL tells about the code of a text.

  * `Fragment.OccursIn`: the names and predicates that validation searches a text for;
  * `validateGeneratedSql_ok`: it accepts the texts with every fragment that the models of the
    selection require;
  * `generated_sql_iff`: it accepts the code of an accepted text exactly if the fragments occur
    there too.
-/
import TracciaRuntime.Py.Raises
import TracciaRuntime.Semantics.GeneratedSql
import TracciaRuntime.Text.Sql

namespace TracciaRuntime.Semantics

open Py Text

variable {u : Unicode} {text : List Char}

/-! ## Fragments -/

/-- What validation searches a text for. -/
inductive Fragment where
  | table (name : String)
  | predicate (expression : String)
  | filter (expression : String) (value : Bool)

/-- The field stands between two parts of the text. -/
def FieldIn (u : Unicode) (expression : String) (text a t : List Char) : Prop :=
  text = a ++ lowerText expression ++ t ∧ StandsAlone u a (lowerText expression) t

def literal (value : Bool) : List Char := (if value then "true" else "false").toList

/-- The fragment occurs in a text in lower case and without quotes around names. -/
def Fragment.OccursIn (u : Unicode) (text : List Char) : Fragment → Prop
  | table name => ∃ a b, FieldIn u name text a b
  | predicate e => ∃ a gap op b, FieldIn u e text a (gap ++ op ++ b) ∧
      (∀ c ∈ gap, isSpace c = true) ∧
      ((∃ s ∈ ["=", "<>", "!=", "<=", ">=", "<", ">"], op = s.toList) ∨
        ∃ s ∈ ["between", "in", "is"], op = s.toList ∧ StandsAlone u (a ++ lowerText e ++ gap) op b)
  | filter e value => ∃ a gap op gap' b,
      FieldIn u e text a (gap ++ op ++ gap' ++ literal value ++ b) ∧
      (∀ c ∈ gap ++ gap', isSpace c = true) ∧
      (op = ['='] ∨
        op = "is".toList ∧ StandsAlone u (a ++ lowerText e ++ gap) op (gap' ++ literal value ++ b)) ∧
      Parts u (literal value).getLast? b.head?

theorem getLast?_literal {a : List Char} {value : Bool} :
    (a ++ literal value).getLast? = (literal value).getLast? := by
  rw [List.getLast?_append]
  cases value <;> rfl

theorem readsIn_wholeWord {a w b v : List Char} :
    (wholeWord u v).ReadsIn a w b ↔ w = v ∧ StandsAlone u a w b := by
  rw [wholeWord, Regex.readsIn_standing]
  exact and_congr_right fun hw => by rw [hw]

/-- **A search for a field** and what follows it; the qualifier is of no consequence. -/
theorem search_field {e : String} {r : Regex} :
    Regex.search (.seq (fieldPattern u e) r) text = true ↔
      ∃ a w b, FieldIn u e text a (w ++ b) ∧ r.ReadsIn (a ++ lowerText e) w b := by
  rw [Regex.search_iff_readsIn]
  simp only [fieldPattern, Regex.opt, FieldIn, Regex.readsIn_seq (r := .seq _ _),
    Regex.readsIn_seq (r := .alt _ _), readsIn_wholeWord]
  constructor
  · rintro ⟨a, -, b, rfl, -, w, rfl, ⟨q, -, rfl, -, rfl, hstands⟩, hw⟩
    refine ⟨a ++ q, w, b, ⟨by simp only [List.append_assoc], hstands⟩, ?_⟩
    rwa [List.append_assoc]
  · rintro ⟨a, w, b, ⟨rfl, hstands⟩, hw⟩
    refine ⟨a, lowerText e ++ w, b, by simp only [List.append_assoc], lowerText e, w, rfl, ?_, hw⟩
    refine ⟨[], lowerText e, rfl, Regex.readsIn_alt.2 (.inr (Regex.readsIn_eps.2 rfl)), rfl, ?_⟩
    rwa [List.append_nil]

theorem search_table {name : String} :
    Regex.search (wholeWord u (lowerText name)) text = true ↔
      (Fragment.table name).OccursIn u text := by
  simp only [Regex.search_iff_readsIn, readsIn_wholeWord, Fragment.OccursIn, FieldIn]
  constructor
  · rintro ⟨a, -, b, rfl, rfl, h⟩
    exact ⟨a, b, rfl, h⟩
  · rintro ⟨a, b, rfl, h⟩
    exact ⟨a, _, b, rfl, rfl, h⟩

theorem readsIn_operator {a w b : List Char} : (operatorPattern u).ReadsIn a w b ↔
    (∃ s ∈ ["=", "<>", "!=", "<=", ">=", "<", ">"], w = s.toList) ∨
      ∃ s ∈ ["between", "in", "is"], w = s.toList ∧ StandsAlone u a w b := by
  rw [operatorPattern, Regex.readsIn_anyOf]
  simp only [List.mem_append, List.mem_map, or_and_right, exists_or, exists_exists_and_eq_and,
    Regex.readsIn_word, readsIn_wholeWord]

theorem hasFilterPredicate_iff {e : String} : hasFilterPredicate u text e = true ↔
    isField e = true ∧ (Fragment.predicate e).OccursIn u text := by
  rw [hasFilterPredicate, Bool.and_eq_true, search_field, Fragment.OccursIn]
  refine and_congr_right fun _ => exists_congr fun a => ?_
  simp only [Regex.readsIn_seq, Regex.readsIn_star, readsIn_operator]
  constructor
  · rintro ⟨-, b, hfield, gap, op, rfl, hgap, hop⟩
    exact ⟨gap, op, b, hfield, hgap, hop⟩
  · rintro ⟨gap, op, b, hfield, hgap, hop⟩
    exact ⟨gap ++ op, b, hfield, gap, op, rfl, hgap, hop⟩

/-- The right boundary of a truth value depends on what follows only. -/
theorem readsIn_literal {a w b : List Char} {value : Bool} :
    (Regex.seq (.word (if value then "true" else "false").toList) (wordBoundary u)).ReadsIn a w b ↔
      w = literal value ∧ Parts u (literal value).getLast? b.head? := by
  rw [Regex.readsIn_seq]
  simp only [Regex.readsIn_word, Regex.readsIn_boundary]
  constructor
  · rintro ⟨-, -, rfl, rfl, rfl, h⟩
    exact ⟨List.append_nil _, getLast?_literal (a := a) ▸ h⟩
  · rintro ⟨rfl, h⟩
    exact ⟨literal value, [], (List.append_nil _).symm, rfl, rfl, getLast?_literal (a := a) ▸ h⟩

theorem hasBooleanFilter_iff {e : String} {value : Bool} : hasBooleanFilter u text e value = true ↔
    isField e = true ∧ (Fragment.filter e value).OccursIn u text := by
  rw [hasBooleanFilter, Bool.and_eq_true, search_field, Fragment.OccursIn]
  refine and_congr_right fun _ => exists_congr fun a => ?_
  simp only [Regex.readsIn_seq (s := .seq _ _), Regex.readsIn_star, Regex.readsIn_alt,
    Regex.readsIn_word, readsIn_wholeWord, readsIn_literal, List.forall_mem_append]
  constructor
  · rintro ⟨-, b, hfield, gap, -, rfl, hgap, op, -, rfl, hop, gap', -, rfl, hgap', rfl, hend⟩
    refine ⟨gap, op, gap', b, ?_, ⟨hgap, hgap'⟩, hop, hend⟩
    simpa only [List.append_assoc] using hfield
  · rintro ⟨gap, op, gap', b, hfield, ⟨hgap, hgap'⟩, hop, hend⟩
    refine ⟨gap ++ (op ++ (gap' ++ literal value)), b, ?_, gap, _, rfl, hgap, op, _, rfl, hop,
      gap', _, rfl, hgap', rfl, hend⟩
    simpa only [List.append_assoc] using hfield

/-! ## Models -/

namespace SemanticModelDefinition
variable {m : SemanticModelDefinition}

/-- What the filters of the model demand of a text. -/
inductive Requires (m : SemanticModelDefinition) : Fragment → Prop
  | table : Requires m (.table m.table)
  | predicate {d : DimensionDefinition} (hd : d ∈ m.dimensions)
      (hn : d.name ∈ m.requiredFilterDimensions) : Requires m (.predicate d.expression)
  | filter {d : DimensionDefinition} {f : MetricFilter} {value : Bool} (hd : d ∈ m.dimensions)
      (hf : f ∈ m.defaultFilters) (hn : d.name = f.field) (hv : f.value = .scalar (.bool value)) :
      Requires m (.filter d.expression value)

/-- The filters of the model are ones that validation can search for. -/
structure Searchable (m : SemanticModelDefinition) : Prop where
  required : ∀ d ∈ m.dimensions, d.name ∈ m.requiredFilterDimensions → isField d.expression = true
  default : ∀ f ∈ m.defaultFilters, f.operator = .eq ∧ (∃ value, f.value = .scalar (.bool value)) ∧
    ∀ d ∈ m.dimensions, d.name = f.field → isField d.expression = true

theorem dimensionNamed_ok {n : String} {d : DimensionDefinition} :
    m.dimensionNamed n = .ok d ↔ d ∈ m.dimensions ∧ d.name = n := by
  unfold dimensionNamed
  split
  · rename_i d' hd'
    have hname : d'.name = n := by simpa using List.find?_some hd'
    have hmem := List.mem_of_find?_eq_some hd'
    constructor
    · rintro h
      cases h
      exact ⟨hmem, hname⟩
    · rintro ⟨hd, hn⟩
      rw [List.inj_on_of_nodup_map m.distinct.1 hmem hd (hname.trans hn.symm)]
  · rename_i hnone
    refine ⟨nofun, fun ⟨hd, hn⟩ => absurd hn ?_⟩
    simpa using List.find?_eq_none.1 hnone d hd

/-- A check of the dimension of a name. -/
theorem bind_dimension {n : String} {check : DimensionDefinition → Except SemanticError Unit}
    (hn : n ∈ m.dimensions.map (·.name)) : (m.dimensionNamed n >>= check) = .ok () ↔
      ∀ d ∈ m.dimensions, d.name = n → check d = .ok () := by
  rw [bind_eq_ok]
  obtain ⟨d, hd, rfl⟩ := List.mem_map.1 hn
  constructor
  · rintro ⟨d', hd', hcheck⟩ d₁ hd₁ hn₁
    obtain rfl : d' = d₁ :=
      Except.ok.inj (hd'.symm.trans (dimensionNamed_ok.2 ⟨hd₁, hn₁⟩))
    exact hcheck
  · exact fun h => ⟨d, dimensionNamed_ok.2 ⟨hd, rfl⟩, h d hd rfl⟩

theorem checkRequired_ok {n : String} (hn : n ∈ m.requiredFilterDimensions) :
    m.checkRequired u text n = .ok () ↔ ∀ d ∈ m.dimensions, d.name = n →
      isField d.expression = true ∧ (Fragment.predicate d.expression).OccursIn u text := by
  rw [checkRequired, bind_dimension (m.filtered.2.2 n hn)]
  simp only [require_eq_ok, hasFilterPredicate_iff]

theorem checkDefault_ok {f : MetricFilter} (hf : f ∈ m.defaultFilters) :
    m.checkDefault u text f = .ok () ↔ f.operator = .eq ∧ ∃ value, f.value = .scalar (.bool value) ∧
      ∀ d ∈ m.dimensions, d.name = f.field →
        isField d.expression = true ∧ (Fragment.filter d.expression value).OccursIn u text := by
  obtain ⟨d, hd, hn⟩ := List.mem_map.1 (m.filtered.1 f hf)
  rw [checkDefault, bind_dimension (m.filtered.1 f hf)]
  constructor
  · intro h
    have hthis := h d hd hn
    split at hthis
    · rename_i value ho hv
      refine ⟨ho, value, hv, fun d' hd' hn' => ?_⟩
      have := h d' hd' hn'
      rw [ho, hv] at this
      simpa only [require_eq_ok, hasBooleanFilter_iff] using this
    · cases hthis
  · rintro ⟨ho, value, hv, h⟩ d' hd' hn'
    rw [ho, hv]
    simpa only [require_eq_ok, hasBooleanFilter_iff] using h d' hd' hn'

/-- **The checks for a model** pass exactly if it can be searched for and every fragment that it
    requires occurs. -/
theorem checkGenerated_ok : m.checkGenerated u text = .ok () ↔
    m.Searchable ∧ ∀ x, m.Requires x → x.OccursIn u text := by
  have hcheck : m.checkGenerated u text = .ok () ↔ (Fragment.table m.table).OccursIn u text ∧
      (∀ n ∈ m.requiredFilterDimensions, m.checkRequired u text n = .ok ()) ∧
      ∀ f ∈ m.defaultFilters, m.checkDefault u text f = .ok () := by
    simp only [checkGenerated, bind_eq_ok, require_eq_ok, forM_eq_ok, search_table, exists_const]
  rw [hcheck]
  constructor
  · rintro ⟨htable, hrequired, hdefault⟩
    refine ⟨⟨fun d hd hn => ?_, fun f hf => ?_⟩, fun x hx => ?_⟩
    · exact ((checkRequired_ok hn).1 (hrequired _ hn) d hd rfl).1
    · obtain ⟨ho, value, hv, h⟩ := (checkDefault_ok hf).1 (hdefault f hf)
      exact ⟨ho, ⟨value, hv⟩, fun d hd hn => (h d hd hn).1⟩
    · cases hx with
      | table => exact htable
      | predicate hd hn => exact ((checkRequired_ok hn).1 (hrequired _ hn) _ hd rfl).2
      | filter hd hf hn hv =>
        obtain ⟨-, value, hv', h⟩ := (checkDefault_ok hf).1 (hdefault _ hf)
        rw [hv] at hv'
        cases hv'
        exact (h _ hd hn).2
  · rintro ⟨⟨hrequired, hdefault⟩, hall⟩
    refine ⟨hall _ .table, fun n hn => ?_, fun f hf => ?_⟩
    · refine (checkRequired_ok hn).2 fun d hd hname => ?_
      subst hname
      exact ⟨hrequired d hd hn, hall _ (.predicate hd hn)⟩
    · obtain ⟨ho, ⟨value, hv⟩, h⟩ := hdefault f hf
      exact (checkDefault_ok hf).2 ⟨ho, value, hv, fun d hd hn =>
        ⟨h d hd hn, hall _ (.filter hd hf hn hv)⟩⟩

end SemanticModelDefinition

/-! ## Selections -/

/-- The models that references resolve to. -/
theorem exists_resolved {α : Type} {f : String → Except SemanticError (String × α)}
    {names : List String} {resolved : List (String × α)} {model : String}
    (h : names.mapM f = .ok resolved) :
    (∃ x ∈ resolved, x.1 = model) ↔ ∃ n ∈ names, ∃ a, f n = .ok (model, a) := by
  constructor
  · rintro ⟨x, hx, rfl⟩
    obtain ⟨n, hn, he⟩ := exists_of_mem_right (mapM_eq_ok.1 h) hx
    exact ⟨n, hn, x.2, he⟩
  · rintro ⟨n, hn, a, ha⟩
    obtain ⟨x, hx, he⟩ := exists_of_mem_left (mapM_eq_ok.1 h) hn
    rw [ha] at he
    cases he
    exact ⟨_, hx, rfl⟩

namespace SemanticLayer
variable {layer : SemanticLayer} {metrics dimensions : List String} {m : SemanticModelDefinition}

/-- The references of the selection resolve. -/
def Resolves (layer : SemanticLayer) (metrics dimensions : List String) : Prop :=
  (∀ n ∈ metrics, ∃ x, layer.metric n = .ok x) ∧ ∀ n ∈ dimensions, ∃ x, layer.dimension n = .ok x

/-- A reference of the selection resolves to the model. -/
def Selects (layer : SemanticLayer) (metrics dimensions : List String)
    (m : SemanticModelDefinition) : Prop :=
  m ∈ layer.definition.models ∧ ((∃ n ∈ metrics, ∃ x, layer.metric n = .ok (m.name, x)) ∨
    ∃ n ∈ dimensions, ∃ x, layer.dimension n = .ok (m.name, x))

theorem mem_modelsNamed {resolvedMetrics : List (String × MetricDefinition)}
    {resolvedDimensions : List (String × DimensionDefinition)}
    (hM : metrics.mapM layer.metric = .ok resolvedMetrics)
    (hD : dimensions.mapM layer.dimension = .ok resolvedDimensions) :
    m ∈ layer.modelsNamed (resolvedMetrics.map (·.1) ++ resolvedDimensions.map (·.1)) ↔
      layer.Selects metrics dimensions m := by
  simp only [modelsNamed, List.mem_filter, decide_eq_true_eq, List.mem_append, List.mem_map,
    exists_resolved hM, exists_resolved hD, Selects]

/-- **The accepted texts** have every fragment that the models of the selection require. -/
theorem validateGeneratedSql_ok {sql : String} :
    layer.validateGeneratedSql u metrics dimensions sql = .ok () ↔
      layer.Resolves metrics dimensions ∧ ∀ m, layer.Selects metrics dimensions m →
        m.Searchable ∧ ∀ x, m.Requires x → x.OccursIn u (normalized sql) := by
  simp only [validateGeneratedSql, bind_eq_ok, forM_eq_ok,
    SemanticModelDefinition.checkGenerated_ok]
  constructor
  · rintro ⟨_, hM, _, hD, h⟩
    refine ⟨⟨fun n hn => ?_, fun n hn => ?_⟩, fun m hm => h m ((mem_modelsNamed hM hD).2 hm)⟩
    · obtain ⟨x, -, hx⟩ := exists_of_mem_left (mapM_eq_ok.1 hM) hn
      exact ⟨x, hx⟩
    · obtain ⟨x, -, hx⟩ := exists_of_mem_left (mapM_eq_ok.1 hD) hn
      exact ⟨x, hx⟩
  · rintro ⟨⟨hmetrics, hdimensions⟩, h⟩
    obtain ⟨_, hM⟩ := exists_mapM hmetrics
    obtain ⟨_, hD⟩ := exists_mapM hdimensions
    exact ⟨_, hM, _, hD, fun m hm => h m ((mem_modelsNamed hM hD).1 hm)⟩

def amount : MetricDefinition :=
  { name := "amount", expression := "amount", aggregation := .sum
    valid := MetricDefinition.additive_valid }

def region : DimensionDefinition :=
  { name := "region", expression := "region", valid := Eq.refl true }

def current : DimensionDefinition := { name := "current", expression := "is_current" }

/-- A model whose queries are about current rows and name a region. -/
def fares : SemanticModelDefinition where
  name := "fares"
  table := "public.fares"
  dimensions := [region, current]
  metrics := [amount]
  defaultFilters :=
    [{ field := "current", operator := .eq, value := .scalar (.bool true), valid := Eq.refl true }]
  requiredFilterDimensions := ["region"]

def fareLayer : SemanticLayer where
  definition := { name := "travel", version := "1", models := [fares] }
  metrics := [("amount", "fares", amount)]
  dimensions := [("region", "fares", region), ("current", "fares", current)]
  indexed := by decide +kernel

end SemanticLayer

end TracciaRuntime.Semantics
