/-
  Traccia Runtime formalization — the semantic layer (`semantics/layer.py`).

  * `SemanticLayer`: a layer definition with the indexes of its metrics and
    dimensions by their names and synonyms;
  * `validateSelection`, `validateQuery`: the governance checks of a query;
  * `dimension_mem` and `dimension_name`: a reference resolves to a dimension of
    a model of the layer, and the name of a dimension resolves to it.
-/
import TracciaRuntime.Py.Result
import TracciaRuntime.Semantics.Contracts
import Mathlib.Data.List.Dedup

namespace TracciaRuntime.Semantics

open Py

/-! ## Texts -/

/-- `c.lower()`, up to characters that are neither letters nor digits in ASCII. -/
def lowered (c : Char) : List Char :=
  if c = '\u0130' then ['i', '\u0307'] else [lowerChar c]

/-- `re.sub(r"[^a-z0-9]+", "_", s)`; `gap` if the character before was replaced. -/
def collapse : (gap : Bool) → List Char → List Char
  | _, [] => []
  | gap, c :: cs =>
    if isLetter c || isDigit c then c :: collapse false cs
    else if gap then collapse true cs
    else '_' :: collapse true cs

/-- `_key`. -/
def key (value : String) : String :=
  let cs := collapse false ((strip value).toList.flatMap lowered)
  String.ofList ((cs.dropWhile (· = '_')).reverse.dropWhile (· = '_')).reverse

/-- `name.rsplit(".", 1)`. -/
def rsplitDot (name : String) : Option (String × String) :=
  if '.' ∈ name.toList then
    let after := (name.toList.reverse.takeWhile (· ≠ '.')).reverse
    some (String.ofList (name.toList.take (name.toList.length - after.length - 1)),
      String.ofList after)
  else none

/-- `sorted` of a set of texts, as it is printed. -/
def showSorted (texts : List String) : String :=
  let quoted := (texts.dedup.mergeSort fun a b => a ≤ b).map fun t => s!"'{t}'"
  "[" ++ ", ".intercalate quoted ++ "]"

/-! ## Indexes -/

section
variable {α : Type} [DecidableEq α]

/-- The entries of an index: the model and the definition under each key. -/
abbrev Index (α : Type) := Dict String (String × α)

/-- `_index`. -/
def index (d : Index α) (name model : String) (value : α) : Except SemanticError (Index α) :=
  match d.get (key name) with
  | some current =>
    if current = (model, value) then .ok (d.set (key name) (model, value))
    else .error (.configuration s!"ambiguous semantic alias '{name}'")
  | none => .ok (d.set (key name) (model, value))

/-- A definition under its name and its synonyms. -/
def indexAll (d : Index α) (model : String) (value : α) (names : List String) :
    Except SemanticError (Index α) :=
  names.foldlM (fun d name => index d name model value) d

/-- `_qualified_reference`. -/
def qualifiedReference (d : Index α) (name : String) : Option (String × α) :=
  match rsplitDot name with
  | none => none
  | some (modelName, referenceName) =>
    (d.get (key referenceName)).filter fun resolved => key resolved.1 = key modelName

def resolve (d : Index α) (name : String) : Option (String × α) :=
  match d.get (key name) with
  | some x => some x
  | none => qualifiedReference d name

end

/-- The metrics and dimensions of a model join the indexes. -/
def indexModel (x : Index MetricDefinition × Index DimensionDefinition)
    (model : SemanticModelDefinition) :
    Except SemanticError (Index MetricDefinition × Index DimensionDefinition) := do
  let metrics ← model.metrics.foldlM
    (fun d metric => indexAll d model.name metric (metric.name :: metric.synonyms)) x.1
  let dimensions ← model.dimensions.foldlM
    (fun d dimension => indexAll d model.name dimension (dimension.name :: dimension.synonyms)) x.2
  pure (metrics, dimensions)

/-- `SemanticLayer.__init__`. -/
def indexes (definition : SemanticLayerDefinition) :
    Except SemanticError (Index MetricDefinition × Index DimensionDefinition) :=
  definition.models.foldlM indexModel ([], [])

/-- `SemanticLayer`; its digest and prompt context are left out. -/
structure SemanticLayer where
  definition : SemanticLayerDefinition
  metrics : Index MetricDefinition
  dimensions : Index DimensionDefinition
  indexed : indexes definition = .ok (metrics, dimensions)

namespace SemanticLayer
variable (layer : SemanticLayer)

def metric (name : String) : Except SemanticError (String × MetricDefinition) :=
  match resolve layer.metrics name with
  | some x => .ok x
  | none => .error (.notFound s!"semantic metric '{name}' is not defined")

def dimension (name : String) : Except SemanticError (String × DimensionDefinition) :=
  match resolve layer.dimensions name with
  | some x => .ok x
  | none => .error (.notFound s!"semantic dimension '{name}' is not defined")

/-- The definitions of the models with these names. -/
def modelsNamed (names : List String) : List SemanticModelDefinition :=
  layer.definition.models.filter fun m => m.name ∈ names

end SemanticLayer

/-! ## Governance -/

/-- What a compiler is configured with. -/
structure Access where
  minimumCertification : Certification
  maximumSensitivity : Sensitivity := .restricted
  authorizationTags : Finset String := ∅

/-- A caller with this access may read the definition. -/
def Access.permits (access : Access) (sensitivity : Sensitivity) (tags : List String) : Prop :=
  sensitivity.rank ≤ access.maximumSensitivity.rank ∧ ∀ t ∈ tags, t ∈ access.authorizationTags

instance (access : Access) (sensitivity : Sensitivity) (tags : List String) :
    Decidable (access.permits sensitivity tags) :=
  inferInstanceAs (Decidable (_ ∧ _))

/-- `_validate_access`. -/
def validateAccess (kind name : String) (sensitivity : Sensitivity) (requiredTags : List String)
    (access : Access) : Except SemanticError Unit := do
  require (sensitivity.rank ≤ access.maximumSensitivity.rank) (.configuration
    (s!"semantic {kind} '{name}' sensitivity {sensitivity.value} exceeds allowed " ++
      s!"level {access.maximumSensitivity.value}"))
  let missingTags := requiredTags.filter fun t => t ∉ access.authorizationTags
  require (missingTags = []) (.configuration
    s!"semantic {kind} '{name}' requires authorization tags {showSorted missingTags}")

/-- `_validate_governance`. -/
def validateGovernance (kind name : String) (certification : Certification)
    (sensitivity : Sensitivity) (requiredTags : List String) (access : Access) :
    Except SemanticError Unit := do
  require (access.minimumCertification.rank ≤ certification.rank) (.configuration
    (s!"semantic {kind} '{name}' is {certification.value}, below required " ++
      s!"certification {access.minimumCertification.value}"))
  validateAccess kind name sensitivity requiredTags access

namespace SemanticLayer
variable (layer : SemanticLayer)

/-- `validate_selection`, after `validate_references`. -/
def validateSelection (metrics dimensions : List String) (access : Access) :
    Except SemanticError
      (List (String × MetricDefinition) × List (String × DimensionDefinition)) := do
  let resolvedMetrics ← metrics.mapM layer.metric
  let resolvedDimensions ← dimensions.mapM layer.dimension
  resolvedMetrics.forM fun (_, metric) => do
    let unknown := (resolvedDimensions.map (·.2.name)).filter (· ∉ metric.allowedDimensions)
    require (metric.allowedDimensions = [] ∨ unknown = []) (.configuration
      s!"metric '{metric.name}' cannot be grouped by {showSorted unknown}")
    validateGovernance "metric" metric.name metric.certification metric.sensitivity
      metric.authorizationTags access
  resolvedDimensions.forM fun (_, dimension) =>
    validateAccess "dimension" dimension.name dimension.sensitivity dimension.authorizationTags
      access
  (layer.modelsNamed (resolvedMetrics.map (·.1) ++ resolvedDimensions.map (·.1))).forM fun model =>
    validateGovernance "model" model.name model.certification model.sensitivity
      model.authorizationTags access
  pure (resolvedMetrics, resolvedDimensions)

/-- `validate_query`. -/
def validateQuery (query : MetricQuery) (access : Access) : Except SemanticError Unit := do
  let resolved ← layer.validateSelection query.metrics query.dimensions access
  (layer.modelsNamed (resolved.1.map (·.1) ++ resolved.2.map (·.1))).forM fun model => do
    let filtered ← query.filters.mapM fun f => layer.dimension f.field
    let missing := model.requiredFilterDimensions.filter (· ∉ filtered.map (·.2.name))
    require (missing = []) (.configuration
      s!"semantic model '{model.name}' requires filters for {showSorted missing}")

end SemanticLayer

/-! ## What references resolve to -/

section
variable {α : Type} [DecidableEq α] {d d' : Index α} {model : String} {value : α}
  {names : α → List String} {entries : List (String × α)}

/-- The index has these entries under all their names, and no others. -/
structure Lists (d : Index α) (names : α → List String) (entries : List (String × α)) : Prop where
  get : ∀ x ∈ entries, ∀ n ∈ names x.2, d.get (key n) = some x
  mem : ∀ k x, d.get k = some x → x ∈ entries

/-- **What one `_index` does**: it adds an entry and keeps the others. -/
theorem index_ok {name : String} (h : index d name model value = .ok d') :
    d'.get (key name) = some (model, value) ∧
    (∀ k x, d.get k = some x → d'.get k = some x) ∧
    ∀ k x, d'.get k = some x → d.get k = some x ∨ x = (model, value) := by
  have hset : d' = d.set (key name) (model, value) ∧
      ∀ x, d.get (key name) = some x → x = (model, value) := by
    unfold index at h
    split at h
    · rename_i current hget
      split at h
      · rename_i hcur
        cases h
        refine ⟨rfl, fun x hx => ?_⟩
        rw [hget] at hx; cases hx; exact hcur
      · cases h
    · rename_i hget
      cases h
      refine ⟨rfl, fun x hx => ?_⟩
      rw [hget] at hx; cases hx
  obtain ⟨rfl, hold⟩ := hset
  refine ⟨Dict.get_set_self _ _ _, fun k x hx => ?_, fun k x hx => ?_⟩
  · rw [Dict.get_set]
    split
    · rename_i hk; subst hk; rw [hold x hx]
    · exact hx
  · rw [Dict.get_set] at hx
    split at hx
    · cases hx; exact Or.inr rfl
    · exact Or.inl hx

theorem Lists.indexAll (hd : Lists d names entries)
    (h : indexAll d model value (names value) = .ok d') :
    Lists d' names (entries ++ [(model, value)]) := by
  have inv := foldlM_invariant (f := fun d name => index d name model value)
    (I := fun seen s => (∀ k x, d.get k = some x → s.get k = some x) ∧
      (∀ n ∈ seen, s.get (key n) = some (model, value)) ∧
      ∀ k x, s.get k = some x → d.get k = some x ∨ x = (model, value))
    ⟨fun _ _ h => h, by simp, fun _ _ h => Or.inl h⟩ (fun seen s name s' _ hI hs => ?_) h
  · obtain ⟨hkeep, hnew, hmem⟩ := inv
    refine ⟨fun x hx n hn => ?_, fun k x hx => ?_⟩
    · rcases List.mem_append.1 hx with hx | hx
      · exact hkeep _ _ (hd.get x hx n hn)
      · rw [List.mem_singleton] at hx; subst hx; exact hnew n hn
    · rcases hmem k x hx with hx | rfl
      · exact List.mem_append_left _ (hd.mem k x hx)
      · exact List.mem_append_right _ List.mem_cons_self
  · obtain ⟨hkeep, hnew, hmem⟩ := hI
    obtain ⟨h₁, h₂, h₃⟩ := index_ok hs
    refine ⟨fun k x hx => h₂ k x (hkeep k x hx), fun n hn => ?_, fun k x hx => ?_⟩
    · rcases List.mem_append.1 hn with hn | hn
      · exact h₂ _ _ (hnew n hn)
      · rw [List.mem_singleton] at hn; subst hn; exact h₁
    · exact (h₃ k x hx).elim (hmem k x) Or.inr

/-- The loop over the definitions of a model. -/
theorem Lists.indexEach {values : List α} (hd : Lists d names entries)
    (h : values.foldlM (fun d x => Semantics.indexAll d model x (names x)) d = .ok d') :
    Lists d' names (entries ++ values.map fun x => (model, x)) := by
  refine foldlM_invariant (I := fun seen s => Lists s names
    (entries ++ seen.map fun x => (model, x))) (by simpa using hd) (fun seen s x s' _ hI hs => ?_) h
  rw [List.map_append, ← List.append_assoc]
  exact hI.indexAll hs

omit [DecidableEq α] in
theorem Lists.resolve_mem {name : String} {x : String × α} (hd : Lists d names entries)
    (h : resolve d name = some x) : x ∈ entries := by
  unfold resolve at h
  split at h
  · rename_i x' hget
    cases h; exact hd.mem _ _ hget
  · unfold qualifiedReference at h
    split at h
    · cases h
    · rw [Option.filter_eq_some_iff] at h
      exact hd.mem _ _ h.1

omit [DecidableEq α] in
theorem Lists.resolve_name {name : String} {x : String × α} (hd : Lists d names entries)
    (hn : name ∈ names x.2) (hx : x ∈ entries) : resolve d name = some x := by
  unfold resolve
  rw [hd.get x hx name hn]

end

namespace SemanticLayer
variable {layer : SemanticLayer} {model : String} {name : String}

/-- The metrics and the dimensions of a model, with its name. -/
def metricEntries (m : SemanticModelDefinition) : List (String × MetricDefinition) :=
  m.metrics.map fun x => (m.name, x)

def dimensionEntries (m : SemanticModelDefinition) : List (String × DimensionDefinition) :=
  m.dimensions.map fun x => (m.name, x)

/-- The indexes of a layer list its metrics and its dimensions. -/
theorem lists (layer : SemanticLayer) :
    Lists layer.metrics (fun x => x.name :: x.synonyms)
      (layer.definition.models.flatMap metricEntries) ∧
    Lists layer.dimensions (fun x => x.name :: x.synonyms)
      (layer.definition.models.flatMap dimensionEntries) := by
  refine foldlM_invariant (f := indexModel)
    (I := fun seen s => Lists s.1 (fun x => x.name :: x.synonyms) (seen.flatMap metricEntries) ∧
      Lists s.2 (fun x => x.name :: x.synonyms) (seen.flatMap dimensionEntries))
    ⟨⟨by simp, fun _ _ h => by cases h⟩, ⟨by simp, fun _ _ h => by cases h⟩⟩
    (fun seen s m s' _ hI hs => ?_) layer.indexed
  obtain ⟨metrics, hm, hs⟩ := bind_eq_ok.1 hs
  obtain ⟨dimensions, hd, hs⟩ := bind_eq_ok.1 hs
  cases hs
  rw [List.flatMap_append, List.flatMap_append, List.flatMap_singleton, List.flatMap_singleton]
  exact ⟨hI.1.indexEach hm, hI.2.indexEach hd⟩

/-- **A reference resolves to a dimension of a model.** -/
theorem dimension_mem {d : DimensionDefinition} (h : layer.dimension name = .ok (model, d)) :
    ∃ m ∈ layer.definition.models, m.name = model ∧ d ∈ m.dimensions := by
  unfold dimension at h
  split at h
  · rename_i x hx
    cases h
    have hmem := layer.lists.2.resolve_mem hx
    simp only [List.mem_flatMap, dimensionEntries, List.mem_map] at hmem
    obtain ⟨m, hm, d', hd', he⟩ := hmem
    cases he
    exact ⟨m, hm, rfl, hd'⟩
  · cases h

/-- **The name of a dimension resolves to it.** -/
theorem dimension_name {m : SemanticModelDefinition} {d : DimensionDefinition}
    (hm : m ∈ layer.definition.models) (hd : d ∈ m.dimensions) :
    layer.dimension d.name = .ok (m.name, d) := by
  have hentry : (m.name, d) ∈ layer.definition.models.flatMap dimensionEntries :=
    List.mem_flatMap.2 ⟨m, hm, List.mem_map_of_mem hd⟩
  unfold dimension
  rw [layer.lists.2.resolve_name List.mem_cons_self hentry]

/-- A resolved dimension is the one of its name. -/
theorem dimension_resolved {x : String × DimensionDefinition} (h : layer.dimension name = .ok x) :
    layer.dimension x.2.name = .ok x := by
  obtain ⟨m, hm, hmodel, hd⟩ := dimension_mem h
  rw [dimension_name hm hd, hmodel]

/-- Dimensions with the same name are the same. -/
theorem dimension_unique {name' : String} {x x' : String × DimensionDefinition}
    (h : layer.dimension name = .ok x) (h' : layer.dimension name' = .ok x')
    (hn : x.2.name = x'.2.name) : x = x' := by
  have hx := dimension_resolved h
  rw [hn, dimension_resolved h'] at hx
  cases hx; rfl

/-- A field of a model that names one of its dimensions resolves to it. -/
theorem own_dimension {m : SemanticModelDefinition} {x : String × DimensionDefinition}
    (hm : m ∈ layer.definition.models) (hn : name ∈ m.dimensions.map (·.name))
    (h : layer.dimension name = .ok x) : x.1 = m.name ∧ x.2 ∈ m.dimensions ∧ x.2.name = name := by
  obtain ⟨d, hd, rfl⟩ := List.mem_map.1 hn
  rw [dimension_name hm hd] at h
  cases h
  exact ⟨rfl, hd, rfl⟩

theorem metric_mem {x : MetricDefinition} (h : layer.metric name = .ok (model, x)) :
    ∃ m ∈ layer.definition.models, m.name = model ∧ x ∈ m.metrics := by
  unfold metric at h
  split at h
  · rename_i y hy
    cases h
    have hmem := layer.lists.1.resolve_mem hy
    simp only [List.mem_flatMap, metricEntries, List.mem_map] at hmem
    obtain ⟨m, hm, x', hx', he⟩ := hmem
    cases he
    exact ⟨m, hm, rfl, hx'⟩
  · cases h

/-- Models with the same name are the same. -/
theorem model_unique {m m' : SemanticModelDefinition} (hm : m ∈ layer.definition.models)
    (hm' : m' ∈ layer.definition.models) (h : m.name = m'.name) : m = m' :=
  List.inj_on_of_nodup_map layer.definition.distinct.1 hm hm' h

end SemanticLayer

end TracciaRuntime.Semantics
