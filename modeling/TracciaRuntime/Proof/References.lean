/-
  What a reference that is qualified by its model resolves to.

  * `Keyed`: the keys of an index are those of the names of its entries;
  * `Lists.resolve_qualified_iff`: `model.name` resolves to the entry that is meant exactly if no
    name of another entry has the key of the whole text;
  * `qualified_references_iff`: so do the metrics and dimensions of a layer.
-/
import TracciaRuntime.Semantics.Layer

namespace TracciaRuntime.Semantics

open Py

/-! ## Qualified names -/

theorem dot_not_mem {s : String} (h : isName s = true) : '.' ∉ s.toList := by
  unfold isName at h
  split at h
  · cases h
  · rename_i c cs hs
    rw [Bool.and_eq_true, List.all_eq_true] at h
    rw [hs, List.mem_cons]
    rintro (rfl | hdot)
    · exact absurd h.1 (by decide)
    · exact absurd (h.2 '.' hdot) (by decide)

theorem rsplitDot_append {model name : String} (h : '.' ∉ name.toList) :
    rsplitDot s!"{model}.{name}" = some (model, name) := by
  have htext : (s!"{model}.{name}").toList = model.toList ++ '.' :: name.toList := by
    simp [toString]
  have hafter : ((model.toList ++ '.' :: name.toList).reverse.takeWhile (· ≠ '.')).reverse =
      name.toList := by
    rw [List.reverse_append, List.reverse_cons, List.append_assoc,
      List.takeWhile_append_of_pos fun c hc => ?_]
    · simp
    · exact decide_eq_true fun he => h (List.mem_reverse.1 (he ▸ hc))
  unfold rsplitDot
  rw [htext, if_pos (by simp)]
  dsimp only
  rw [hafter]
  have hlen : (model.toList ++ '.' :: name.toList).length - name.toList.length - 1 =
      model.toList.length := by
    rw [List.length_append, List.length_cons]
    omega
  rw [hlen, List.take_left, String.ofList_toList, String.ofList_toList]

/-! ## Keys of an index -/

section
variable {α : Type} [DecidableEq α] {d d' : Index α} {model name : String} {value : α}
  {names : α → List String} {entries : List (String × α)}

/-- The keys of the index are those of the names of its entries. -/
def Keyed (d : Index α) (names : α → List String) : Prop :=
  ∀ k x, d.get k = some x → ∃ n ∈ names x.2, key n = k

omit [DecidableEq α] in
theorem Keyed.set (hd : Keyed d names) (hn : name ∈ names value) :
    Keyed (d.set (key name) (model, value)) names := by
  intro k x hx
  rw [Dict.get_set] at hx
  split at hx
  · rename_i hk
    cases hx
    exact ⟨name, hn, hk.symm⟩
  · exact hd k x hx

theorem Keyed.index (hd : Keyed d names) (hn : name ∈ names value)
    (h : index d name model value = .ok d') : Keyed d' names := by
  unfold Semantics.index at h
  split at h
  · split at h
    · cases h
      exact hd.set hn
    · cases h
  · cases h
    exact hd.set hn

theorem Keyed.indexAll (hd : Keyed d names)
    (h : indexAll d model value (names value) = .ok d') : Keyed d' names :=
  foldlM_invariant (f := fun d name => Semantics.index d name model value) (I := fun _ s => Keyed s names) hd
    (fun _ _ _ _ hn hI hs => hI.index hn hs) h

theorem Keyed.indexEach {values : List α} (hd : Keyed d names)
    (h : values.foldlM (fun d x => Semantics.indexAll d model x (names x)) d = .ok d') :
    Keyed d' names :=
  foldlM_invariant (I := fun _ s => Keyed s names) hd (fun _ _ _ _ _ hI hs => hI.indexAll hs) h

omit [DecidableEq α] in
/-- **A qualified reference** resolves to the entry that is meant exactly if no name of another
    entry has the key of the whole text: the text is tried as a name first. -/
theorem Lists.resolve_qualified_iff (hd : Lists d names entries) (hk : Keyed d names)
    (hx : (model, value) ∈ entries) (hn : name ∈ names value) (hdot : '.' ∉ name.toList) :
    resolve d s!"{model}.{name}" = some (model, value) ↔
      ∀ x ∈ entries, ∀ n ∈ names x.2, key n = key s!"{model}.{name}" → x = (model, value) := by
  unfold resolve
  constructor
  · intro h x hx' n hn' he
    rw [← he, hd.get x hx' n hn'] at h
    exact Option.some.inj h
  · intro h
    split
    · rename_i x hget
      obtain ⟨n, hn', he⟩ := hk _ _ hget
      rw [h x (hd.mem _ _ hget) n hn' he]
    · unfold qualifiedReference
      rw [rsplitDot_append hdot]
      dsimp only
      rw [hd.get _ hx name hn, Option.filter_some, if_pos (decide_eq_true rfl)]

omit [DecidableEq α] in
/-- The same for the definitions of some models. -/
theorem Lists.resolve_in_iff {models : List SemanticModelDefinition}
    {definitions : SemanticModelDefinition → List α} {M : SemanticModelDefinition}
    (hd : Lists d names (models.flatMap fun M => (definitions M).map fun x => (M.name, x)))
    (hk : Keyed d names) (hM : M ∈ models) (hv : value ∈ definitions M) (hn : name ∈ names value)
    (hdot : '.' ∉ name.toList) :
    resolve d s!"{M.name}.{name}" = some (M.name, value) ↔
      ∀ M' ∈ models, ∀ x ∈ definitions M', ∀ n ∈ names x,
        key n = key s!"{M.name}.{name}" → M'.name = M.name ∧ x = value := by
  rw [hd.resolve_qualified_iff hk (List.mem_flatMap.2 ⟨M, hM, List.mem_map_of_mem hv⟩) hn hdot]
  constructor
  · intro h M' hM' x hx n hn he
    exact Prod.mk.inj (h (M'.name, x) (List.mem_flatMap.2 ⟨M', hM', List.mem_map_of_mem hx⟩) n hn he)
  · intro h y hy n hn he
    obtain ⟨M', hM', hy⟩ := List.mem_flatMap.1 hy
    obtain ⟨x, hx, rfl⟩ := List.mem_map.1 hy
    obtain ⟨hname, rfl⟩ := h M' hM' x hx n hn he
    rw [hname]

end

/-! ## Layers -/

namespace SemanticLayer
variable {layer : SemanticLayer} {M : SemanticModelDefinition} {name : String}

theorem keyed (layer : SemanticLayer) :
    Keyed layer.metrics (fun x => x.name :: x.synonyms) ∧
    Keyed layer.dimensions (fun x => x.name :: x.synonyms) := by
  refine foldlM_invariant (f := indexModel)
    (I := fun _ s => Keyed s.1 (fun x => x.name :: x.synonyms) ∧
      Keyed s.2 (fun x => x.name :: x.synonyms))
    ⟨fun _ _ h => (by cases h), fun _ _ h => (by cases h)⟩ (fun _ _ _ _ _ hI hs => ?_)
    layer.indexed
  obtain ⟨metrics, hm, hs⟩ := bind_eq_ok.1 hs
  obtain ⟨dimensions, hd, hs⟩ := bind_eq_ok.1 hs
  cases hs
  exact ⟨hI.1.indexEach hm, hI.2.indexEach hd⟩

theorem metric_eq_ok {x : String × MetricDefinition} :
    layer.metric name = .ok x ↔ resolve layer.metrics name = some x := by
  unfold metric
  cases resolve layer.metrics name <;> simp

theorem dimension_eq_ok {x : String × DimensionDefinition} :
    layer.dimension name = .ok x ↔ resolve layer.dimensions name = some x := by
  unfold dimension
  cases resolve layer.dimensions name <;> simp

/-- `M.m` is the metric `m` of `M`, and `M.d` the dimension `d`, exactly if no name or synonym of
    another metric, or dimension, has the key of the whole text. -/
theorem qualified_references_iff (hM : M ∈ layer.definition.models) :
    (∀ m ∈ M.metrics, (layer.metric s!"{M.name}.{m.name}" = .ok (M.name, m) ↔
      ∀ M' ∈ layer.definition.models, ∀ m' ∈ M'.metrics, ∀ n ∈ m'.name :: m'.synonyms,
        key n = key s!"{M.name}.{m.name}" → M'.name = M.name ∧ m' = m)) ∧
    ∀ d ∈ M.dimensions, (layer.dimension s!"{M.name}.{d.name}" = .ok (M.name, d) ↔
      ∀ M' ∈ layer.definition.models, ∀ d' ∈ M'.dimensions, ∀ n ∈ d'.name :: d'.synonyms,
        key n = key s!"{M.name}.{d.name}" → M'.name = M.name ∧ d' = d) := by
  refine ⟨fun m hm => ?_, fun d hd => ?_⟩
  · rw [metric_eq_ok]
    exact layer.lists.1.resolve_in_iff layer.keyed.1 hM hm List.mem_cons_self (dot_not_mem m.named)
  · rw [dimension_eq_ok]
    exact layer.lists.2.resolve_in_iff layer.keyed.2 hM hd List.mem_cons_self (dot_not_mem d.valid)

def total : MetricDefinition :=
  { name := "total", expression := "amount", aggregation := .sum
    valid := MetricDefinition.additive_valid }

def salesTotal : MetricDefinition :=
  { name := "sales_total", expression := "price", aggregation := .sum
    valid := MetricDefinition.additive_valid }

def shop : SemanticModelDefinition :=
  { name := "sales", table := "sales", dimensions := [], metrics := [total] }

def market : SemanticModelDefinition :=
  { name := "market", table := "market", dimensions := [], metrics := [salesTotal] }

/-- The metrics `total` of `sales` and `sales_total` of `market`. -/
def trade : SemanticLayer where
  definition := { name := "trade", version := "1", models := [shop, market] }
  metrics := [("total", "sales", total), ("sales_total", "market", salesTotal)]
  dimensions := []
  indexed := by decide +kernel

theorem qualified_references_market :
    trade.metric s!"{market.name}.{salesTotal.name}" = .ok (market.name, salesTotal) :=
  ((qualified_references_iff (by decide +kernel)).1 salesTotal
    (by decide +kernel)).2 (by decide +kernel)

/-- `sales.total` is the metric `sales_total` of `market`. -/
theorem qualified_references_not_always :
    ¬∀ (layer : SemanticLayer), ∀ M ∈ layer.definition.models,
      (∀ m ∈ M.metrics, layer.metric s!"{M.name}.{m.name}" = .ok (M.name, m)) ∧
      ∀ d ∈ M.dimensions, layer.dimension s!"{M.name}.{d.name}" = .ok (M.name, d) := by
  intro h
  have htotal := (h trade shop List.mem_cons_self).1 total List.mem_cons_self
  have hmarket : trade.metric s!"{shop.name}.{total.name}" = .ok (market.name, salesTotal) := by
    decide +kernel
  exact absurd (Prod.mk.inj (Except.ok.inj (htotal.symm.trans hmarket))).1 (by decide)

end SemanticLayer

end TracciaRuntime.Semantics
