/-
  The joins of a compiled query.

  * `Path`: the joins that `_join_path` takes, and `Path.perm`: if it takes each
    of them from its left model to its right one, their right models are the
    models it was to reach;
  * `scoped_iff`: the FROM list introduces each selected model once exactly if
    all joins are taken that way;
  * `fanout_iff`: which fan-outs the compiler lets pass;
  * `bindings_iff`: when a permutation of the dimensions leaves the aliases of a
    join condition bound to the same tables.
-/
import TracciaRuntime.Proof.Filters

namespace TracciaRuntime.Semantics

open Py

namespace ProductionSemanticQueryCompiler

variable {access : Access} {layer : SemanticLayer} {query : MetricQuery}
  {c : CompiledSemanticQuery}

/-! ## The search -/

/-- The joins that the search takes from the reached models to the remaining ones. -/
inductive Path (joins : List JoinDefinition) :
    List String → List String → List JoinDefinition → Prop
  | done {reached} : Path joins reached [] []
  | step {reached remaining j path} : joins.find? (links reached remaining) = some j →
      Path joins (j.leftModel :: j.rightModel :: reached) (remainingAfter reached remaining j) path →
      Path joins reached remaining (j :: path)

theorem links_iff {reached remaining : List String} {j : JoinDefinition} :
    links reached remaining j = true ↔
      (j.leftModel ∈ reached ∧ j.rightModel ∈ remaining) ∨
        (j.rightModel ∈ reached ∧ j.leftModel ∈ remaining) := by
  simp [links]

/-- A round reaches one of the remaining models. -/
theorem length_remainingAfter_lt {reached remaining : List String} {j : JoinDefinition}
    (h : links reached remaining j = true) :
    (remainingAfter reached remaining j).length < remaining.length := by
  have drops : ∀ m ∈ remaining, m ∈ j.leftModel :: j.rightModel :: reached →
      (remainingAfter reached remaining j).length < remaining.length := by
    intro m hm hr
    refine lt_of_le_of_ne (List.length_filter_le _ _) fun he => ?_
    have hall := List.length_filter_eq_length_iff.1 he m hm
    simp [hr] at hall
  rcases links_iff.1 h with ⟨-, hr⟩ | ⟨-, hl⟩
  · exact drops _ hr (List.mem_cons_of_mem _ List.mem_cons_self)
  · exact drops _ hl List.mem_cons_self

/-- The rounds of `_join_path` suffice for the search. -/
theorem joinPath_path {rounds : Nat} {reached remaining : List String} {path : List JoinDefinition}
    (hr : remaining.length ≤ rounds)
    (h : joinPath access layer rounds reached remaining = .ok path) :
    Path layer.definition.joins reached remaining path := by
  induction rounds generalizing reached remaining path with
  | zero =>
    cases h
    rw [List.length_eq_zero_iff.1 (Nat.le_zero.1 hr)]
    exact .done
  | succ rounds ih =>
    unfold joinPath at h
    split at h
    · rename_i hnil
      cases h
      rw [hnil]; exact .done
    · split at h
      · cases h
      · rename_i j hfind
        simp only [bind_eq_ok] at h
        obtain ⟨_, -, path', hpath, h⟩ := h
        cases h
        refine .step hfind (ih ?_ hpath)
        have := length_remainingAfter_lt (List.find?_some hfind)
        omega

/-- The search is a function of the models. -/
theorem Path.unique {joins : List JoinDefinition} {reached remaining : List String}
    {path path' : List JoinDefinition} (h : Path joins reached remaining path)
    (h' : Path joins reached remaining path') : path' = path := by
  induction h generalizing path' with
  | done =>
    cases h' with
    | done => rfl
    | step hfind => simpa [links] using List.find?_some hfind
  | step hfind _ ih =>
    cases h' with
    | done => simpa [links] using List.find?_some hfind
    | step hfind' h' =>
      rw [hfind] at hfind'
      cases hfind'
      rw [ih h']

/-- The search looks at the models as sets. -/
theorem Path.congr {joins : List JoinDefinition} {reached remaining remaining' : List String}
    {path : List JoinDefinition} (h : Path joins reached remaining path)
    (he : ∀ m, m ∈ remaining ↔ m ∈ remaining') : Path joins reached remaining' path := by
  induction h generalizing remaining' with
  | done =>
    have : remaining' = [] := List.eq_nil_iff_forall_not_mem.2 fun m hm => by simpa using (he m).2 hm
    rw [this]; exact .done
  | @step reached remaining j path hfind _ ih =>
    refine .step ?_ (ih fun m => ?_)
    · rw [← hfind]
      congr 1
      funext j
      simp [links, he]
    · simp [remainingAfter, he]

/-- All joins are taken from their left model to their right one. -/
def Forward : (reached : List String) → List JoinDefinition → Prop
  | _, [] => True
  | reached, j :: path =>
    j.leftModel ∈ reached ∧ Forward (j.leftModel :: j.rightModel :: reached) path

/-- The endpoints of the joins are reached or remaining models. -/
theorem Path.endpoints {joins : List JoinDefinition} {reached remaining : List String}
    {path : List JoinDefinition} (h : Path joins reached remaining path) :
    ∀ j ∈ path, (j.leftModel ∈ reached ∨ j.leftModel ∈ remaining) ∧
      (j.rightModel ∈ reached ∨ j.rightModel ∈ remaining) := by
  induction h with
  | done => intro j hj; cases hj
  | @step reached remaining j path hfind _ ih =>
    have hlinks := links_iff.1 (List.find?_some hfind)
    intro j' hj'
    rcases List.mem_cons.1 hj' with rfl | hj'
    · rcases hlinks with ⟨hl, hr⟩ | ⟨hr, hl⟩
      · exact ⟨Or.inl hl, Or.inr hr⟩
      · exact ⟨Or.inr hl, Or.inl hr⟩
    · have back : ∀ m, (m ∈ j.leftModel :: j.rightModel :: reached ∨
          m ∈ remainingAfter reached remaining j) → m ∈ reached ∨ m ∈ remaining := by
        rintro m (hm | hm)
        · rcases List.mem_cons.1 hm with rfl | hm
          · exact hlinks.elim (fun h => Or.inl h.1) fun h => Or.inr h.2
          · rcases List.mem_cons.1 hm with rfl | hm
            · exact hlinks.elim (fun h => Or.inr h.2) fun h => Or.inl h.1
            · exact Or.inl hm
        · exact Or.inr (List.mem_of_mem_filter hm)
      exact (ih j' hj').imp (back _) (back _)

/-- **Joins that are taken forward introduce the remaining models, each once.** -/
theorem Path.perm {joins : List JoinDefinition} {reached remaining : List String}
    {path : List JoinDefinition} (h : Path joins reached remaining path)
    (hn : remaining.Nodup) (hd : ∀ m ∈ remaining, m ∉ reached) (hf : Forward reached path) :
    (path.map (·.rightModel)).Perm remaining := by
  induction h with
  | done => exact List.Perm.refl _
  | @step reached remaining j path hfind _ ih =>
    obtain ⟨hl, hf⟩ := hf
    have hr : j.rightModel ∈ remaining := by
      rcases links_iff.1 (List.find?_some hfind) with ⟨-, hr⟩ | ⟨-, hl'⟩
      · exact hr
      · exact absurd hl (hd _ hl')
    have hafter : remainingAfter reached remaining j = remaining.erase j.rightModel := by
      rw [hn.erase_eq_filter]
      refine List.filter_congr fun m hm => ?_
      have hml : m ≠ j.leftModel := by rintro rfl; exact hd _ hm hl
      rw [Bool.eq_iff_iff]
      simp [hml, hd m hm]
    rw [hafter] at ih
    have hperm := ih (hn.erase _) (fun m hm => ?_) hf
    · exact (List.Perm.cons _ hperm).trans (List.perm_cons_erase hr).symm
    · rw [hn.mem_erase_iff] at hm
      simp only [List.mem_cons, not_or]
      refine ⟨?_, hm.1, hd m hm.2⟩
      rintro rfl; exact hd _ hm.2 hl

/-- **Joins that introduce no model twice are taken forward**: the first one that is not
    introduces a model that has been reached. -/
theorem Path.forward {joins : List JoinDefinition} {reached remaining introduced : List String}
    {path : List JoinDefinition} (h : Path joins reached remaining path)
    (hi : ∀ m, m ∈ introduced ↔ m ∈ reached)
    (hn : (introduced ++ path.map (·.rightModel)).Nodup) : Forward reached path := by
  induction h generalizing introduced with
  | done => trivial
  | @step reached remaining j path hfind _ ih =>
    rw [List.map_cons, ← List.singleton_append, ← List.append_assoc] at hn
    have hl : j.leftModel ∈ reached := by
      rcases links_iff.1 (List.find?_some hfind) with ⟨hl, -⟩ | ⟨hr, -⟩
      · exact hl
      · have hdis := List.disjoint_of_nodup_append (List.nodup_append.1 hn).1
        exact (hdis ((hi _).2 hr) List.mem_cons_self).elim
    refine ⟨hl, ih (fun m => ?_) hn⟩
    simp only [List.mem_append, hi, List.mem_cons, List.not_mem_nil, or_false]
    constructor
    · rintro (h | h)
      · exact Or.inr (Or.inr h)
      · exact Or.inr (Or.inl h)
    · rintro (rfl | h | h)
      · exact Or.inl hl
      · exact Or.inr h
      · exact Or.inl h

/-- The joins that the search takes for a query. -/
def Searched (layer : SemanticLayer) (query : MetricQuery) (base : String)
    (path : List JoinDefinition) : Prop :=
  ∃ metrics dimensions, Resolved layer query metrics dimensions ∧
    (metrics.map (·.1)).dedup = [base] ∧
    Path layer.definition.joins [base] ((modelNames metrics dimensions).filter (· ≠ base)) path

section
variable {metrics : List (String × MetricDefinition)}
  {dimensions : List (String × DimensionDefinition)} {base : SemanticModelDefinition}
  {joins : List JoinDefinition} {p : Predicates}

/-- The production path takes the joins of the search. -/
theorem Joined.searched (hres : Resolved layer query metrics dimensions)
    (h : Joined access layer query metrics dimensions (modelNames metrics dimensions) base joins p c) :
    Searched layer query base.name joins :=
  ⟨metrics, dimensions, hres, h.fact, joinPath_path (Nat.le_refl _) h.path⟩

theorem Searched.unique {b b' : String} {path path' : List JoinDefinition}
    (h : Searched layer query b path) (h' : Searched layer query b' path') :
    b' = b ∧ path' = path := by
  obtain ⟨metrics, dimensions, hres, hb, hp⟩ := h
  obtain ⟨metrics', dimensions', hres', hb', hp'⟩ := h'
  obtain ⟨rfl, rfl⟩ := hres.unique hres'
  rw [hb] at hb'
  cases hb'
  exact ⟨rfl, hp.unique hp'⟩

theorem Joined.base_mem_names
    (h : Joined access layer query metrics dimensions (modelNames metrics dimensions) base joins p c) :
    base.name ∈ modelNames metrics dimensions := by
  have hb : base.name ∈ (metrics.map (·.1)).dedup := h.fact ▸ List.mem_cons_self
  exact mem_modelNames.2 (Or.inl (List.mem_dedup.1 hb))

/-! ## Scopes -/

/-- The table of a model under its alias. -/
def sourceOf (names : List String) (m : SemanticModelDefinition) : Source :=
  ⟨m.table, some (tableAlias names m.name)⟩

/-- The emission of a join introduces its right model. -/
theorem Joined.emit_right
    (h : Joined access layer query metrics dimensions (modelNames metrics dimensions) base joins p c) :
    List.Forall₂ (fun j i => ¬(j.relationship = .oneToMany ∧ j.fanoutSafe = false) ∧
      ∃ m ∈ layer.definition.models, m.name = j.rightModel ∧
        i = JoinItem.mk (sourceOf (modelNames metrics dimensions) m) j.sqlOn) joins
      c.statement.joins := by
  have hpath := joinPath_path (Nat.le_refl _) h.path
  refine ((List.forall₂_and_left _ _).2 ⟨fun j hj => hj, h.join_items⟩).imp fun j i hi => ?_
  obtain ⟨hj, hi⟩ := hi
  have hleft : j.leftModel ∈ modelNames metrics dimensions := by
    rcases (hpath.endpoints j hj).1 with hl | hl
    · rw [List.mem_singleton] at hl
      rw [hl]; exact h.base_mem_names
    · exact List.mem_of_mem_filter hl
  simp only [emitJoin, emitted, hleft, if_true, bind_eq_ok, require_eq_ok] at hi
  obtain ⟨_, hsafe, m, hm, a, ha, hi⟩ := hi
  obtain ⟨hmem, hname⟩ := SemanticLayer.model_eq_ok.1 hm
  obtain ⟨-, rfl⟩ := aliasOf_eq_ok.1 ha
  cases hi
  exact ⟨hsafe, m, hmem, hname, by rw [sourceOf, hname]⟩

/-- The FROM list of the production path. -/
theorem Joined.sources (hres : Resolved layer query metrics dimensions)
    (h : Joined access layer query metrics dimensions (modelNames metrics dimensions) base joins p c) :
    ∃ rights : List SemanticModelDefinition, (∀ m ∈ rights, m ∈ layer.definition.models) ∧
      rights.map (·.name) = joins.map (·.rightModel) ∧
      c.statement.sources = (base :: rights).map (sourceOf (modelNames metrics dimensions)) := by
  have hitems := h.emit_right
  suffices H : ∃ rights : List SemanticModelDefinition, (∀ m ∈ rights, m ∈ layer.definition.models) ∧
      rights.map (·.name) = joins.map (·.rightModel) ∧
      c.statement.joins.map (·.source) = rights.map (sourceOf (modelNames metrics dimensions)) by
    obtain ⟨rights, hmem, hnames, hs⟩ := H
    refine ⟨rights, hmem, hnames, ?_⟩
    rw [Statement.sources, h.source, hs]; rfl
  clear h
  generalize c.statement.joins = items at hitems ⊢
  induction hitems with
  | nil => exact ⟨[], by simp, rfl, rfl⟩
  | cons hj _ ih =>
    obtain ⟨-, m, hm, hname, rfl⟩ := hj
    obtain ⟨rights, hmem, hnames, hs⟩ := ih
    refine ⟨m :: rights, fun m' hm' => ?_, by simp [hname, hnames], by simp [hs]⟩
    rcases List.mem_cons.1 hm' with rfl | hm'
    · exact hm
    · exact hmem m' hm'

end

/-- The definitions of the selected models. -/
theorem mapM_model {names : List String} {models : List SemanticModelDefinition}
    (h : names.mapM layer.model = .ok models) :
    models.map (·.name) = names ∧ ∀ m ∈ models, m ∈ layer.definition.models := by
  have hall := mapM_eq_ok.1 h
  constructor
  · rw [← List.forall₂_eq_eq_eq, List.forall₂_map_left_iff]
    exact List.Forall₂.flip (hall.imp fun n m hm => (SemanticLayer.model_eq_ok.1 hm).2)
  · intro m hm
    obtain ⟨n, -, hmodel⟩ := exists_of_mem_right hall hm
    exact (SemanticLayer.model_eq_ok.1 hmodel).1

/-- Models of a layer are different if their names are. -/
theorem nodup_of_names {models : List SemanticModelDefinition}
    (hm : ∀ m ∈ models, m ∈ layer.definition.models) :
    models.Nodup ↔ (models.map (·.name)).Nodup :=
  ⟨fun h => h.map_on fun m hm₁ m' hm₂ he => SemanticLayer.model_unique (hm m hm₁) (hm m' hm₂) he,
    List.Nodup.of_map _⟩

/-- The aliases in the SELECT list, the WHERE clause and the GROUP BY list. -/
def aliases (s : Statement) : List (Option String) :=
  s.dimensions.map (·.column.tableAlias) ++ s.metrics.map (·.tableAlias) ++
    s.clauses.map (·.column.tableAlias)

/-- The FROM list introduces the table of each selected model once, under its alias and the base
    model first, and every alias that is used is introduced. -/
structure Scoped (layer : SemanticLayer) (c : CompiledSemanticQuery) : Prop where
  once : ∃ models, c.selectedModels.mapM layer.model = .ok models ∧
    c.statement.sources.Perm (models.map (sourceOf c.selectedModels))
  base_first : ∃ m, layer.model c.semanticModel = .ok m ∧
    c.statement.sources.head? = some (sourceOf c.selectedModels m)
  introduced : ∀ a ∈ aliases c.statement, a ∈ c.statement.sources.map (·.tableAlias)

/-- **Join scoping**: the FROM list is in order exactly if the search takes every join from its
    left model to its right one. -/
theorem scoped_iff (access : Access) (layer : SemanticLayer) (query : MetricQuery)
    (c : CompiledSemanticQuery) (h : compile access layer query = .ok c)
    (hjoined : ¬Plain layer query) :
    Scoped layer c ↔ ∀ base path, Searched layer query base path → Forward [base] path := by
  obtain ⟨metrics, dimensions, hres, -, -, ⟨hplain, -⟩ | ⟨-, base, joins, p, h⟩⟩ := compile_cases h
  · exact absurd hplain hjoined
  obtain ⟨models, hmodels, hp⟩ := h.predicates
  obtain ⟨rights, hrights, hnames, hsources⟩ := h.sources hres
  have hsearch := h.searched hres
  have hpath := joinPath_path (Nat.le_refl _) h.path
  obtain ⟨hmodelNames, hmodelMem⟩ := mapM_model hmodels
  have hnodup := modelNames_nodup metrics dimensions
  have hmem : ∀ m ∈ base :: rights, m ∈ layer.definition.models := by
    intro m hm
    rcases List.mem_cons.1 hm with rfl | hm
    · exact h.base_mem
    · exact hrights m hm
  have hroute : (base :: rights).map (·.name) = [base.name] ++ joins.map (·.rightModel) := by
    rw [List.map_cons, hnames]; rfl
  constructor
  · intro hs base' path hsearch'
    obtain ⟨hb, hpath'⟩ := hsearch.unique hsearch'
    rw [hb, hpath']
    obtain ⟨models', hmodels', hperm⟩ := hs.once
    rw [h.selected] at hmodels' hperm
    rw [hmodels] at hmodels'; cases hmodels'
    rw [hsources] at hperm
    have hsrc : (models.map (sourceOf (modelNames metrics dimensions))).Nodup := by
      refine ((nodup_of_names hmodelMem).2 (hmodelNames ▸ hnodup)).map_on fun m hm m' hm' he => ?_
      injection he with _ he
      refine SemanticLayer.model_unique (hmodelMem m hm) (hmodelMem m' hm')
        (tableAlias_inj ?_ (Option.some.inj he))
      rw [← hmodelNames]; exact List.mem_map_of_mem hm
    have hdistinct : ([base.name] ++ joins.map (·.rightModel)).Nodup :=
      hroute ▸ (nodup_of_names hmem).1 ((hperm.nodup_iff.2 hsrc).of_map _)
    exact hpath.forward (fun _ => Iff.rfl) hdistinct
  · intro hf
    have hf := hf _ _ hsearch
    -- the introduced models are the selected ones
    have hperm : ((base :: rights).map (·.name)).Perm (modelNames metrics dimensions) := by
      have htargets := hpath.perm (hnodup.filter _) (by simp) hf
      rw [hroute]
      refine (htargets.cons base.name).trans ?_
      have herase : (modelNames metrics dimensions).filter (· ≠ base.name) =
          (modelNames metrics dimensions).erase base.name := by
        rw [hnodup.erase_eq_filter]
        exact List.filter_congr fun m _ => by rw [Bool.eq_iff_iff]; simp
      rw [herase]
      exact (List.perm_cons_erase h.base_mem_names).symm
    have hsame : (base :: rights).Perm models := by
      refine (List.perm_ext_iff_of_nodup ((nodup_of_names hmem).2 (hperm.nodup_iff.2 hnodup))
        ((nodup_of_names hmodelMem).2 (hmodelNames ▸ hnodup))).2 fun m => ?_
      have back : ∀ {l l' : List SemanticModelDefinition}, (∀ m ∈ l, m ∈ layer.definition.models) →
          (∀ m ∈ l', m ∈ layer.definition.models) → (l.map (·.name)).Perm (l'.map (·.name)) →
          m ∈ l → m ∈ l' := by
        intro l l' hl hl' hp hm
        obtain ⟨m', hm', he⟩ := List.mem_map.1 (hp.subset (List.mem_map_of_mem hm))
        rwa [SemanticLayer.model_unique (hl m hm) (hl' m' hm') he.symm]
      rw [← hmodelNames] at hperm
      exact ⟨back hmem hmodelMem hperm, back hmodelMem hmem hperm.symm⟩
    have hintroduced : ∀ n ∈ modelNames metrics dimensions,
        some (tableAlias (modelNames metrics dimensions) n) ∈
          c.statement.sources.map (·.tableAlias) := by
      intro n hn
      obtain ⟨m, hm, rfl⟩ := List.mem_map.1 (hperm.symm.subset hn)
      rw [hsources, List.map_map]
      exact List.mem_map_of_mem hm
    refine ⟨⟨models, h.selected ▸ hmodels, ?_⟩, ⟨base, ?_, ?_⟩, fun a ha => ?_⟩
    · rw [hsources, h.selected]; exact hsame.map _
    · rw [h.semantic]; exact SemanticLayer.model_eq_ok.2 ⟨h.base_mem, rfl⟩
    · rw [hsources, h.selected]; rfl
    · simp only [aliases, List.mem_append, List.mem_map] at ha
      rcases ha with (⟨g, hg, rfl⟩ | ⟨m, hm, rfl⟩) | ⟨cl, hcl, rfl⟩
      · rw [h.dimension_items] at hg
        obtain ⟨x, hx, rfl⟩ := List.mem_map.1 hg
        exact hintroduced x.1 (mem_modelNames.2 (Or.inr (List.mem_map_of_mem hx)))
      · rw [h.metric_items] at hm
        obtain ⟨x, hx, rfl⟩ := List.mem_map.1 hm
        exact hintroduced x.1 (mem_modelNames.2 (Or.inl (List.mem_map_of_mem hx)))
      · rw [h.clauses] at hcl
        obtain ⟨vs, hst, -⟩ := (predicates_where hmodels hp).sound.stands cl hcl
        obtain ⟨x, hcol, hx⟩ := hst.column_eq
        rw [hcol]
        exact hintroduced x.1 hx

/-- Joins that are declared from the sales to the others. -/
theorem scoped_regions :
    ∃ c, compile Sample.access Sample.layer (Sample.revenueBy ["region", "carrier"]) = .ok c ∧
      Scoped Sample.layer c := by
  obtain ⟨c, hc⟩ := exists_ok
    (x := compile Sample.access Sample.layer (Sample.revenueBy ["region", "carrier"]))
    (by decide +kernel)
  have hres : Resolved Sample.layer (Sample.revenueBy ["region", "carrier"])
      [("sales", Sample.revenue)] [("regions", Sample.region), ("carriers", Sample.carrier)] :=
    ⟨mapM_eq_ok.1 (by decide +kernel), mapM_eq_ok.1 (by decide +kernel)⟩
  refine ⟨c, hc, (scoped_iff _ _ _ _ hc (not_plain hres (Or.inl (by decide +kernel)))).2 ?_⟩
  have hpath : joinPath Sample.access Sample.layer 2 ["sales"] ["regions", "carriers"] =
      .ok [Sample.salesRegions, Sample.salesCarriers] := by decide +kernel
  intro base path hsearch
  obtain ⟨rfl, rfl⟩ := Searched.unique ⟨_, _, hres, rfl, joinPath_path (Nat.le_refl _) hpath⟩ hsearch
  exact ⟨by decide +kernel, by decide +kernel, trivial⟩

/-- **A join that is taken backwards**: the table of the bookings is not introduced, and that of
    the sales twice. -/
theorem backward_join_unscoped :
    ∃ c, compile Sample.access Sample.layer (Sample.revenueBy ["channel"]) = .ok c ∧
      c.statement.sources = [⟨"analytics.sales", some "m0"⟩, ⟨"analytics.sales", some "m0"⟩] ∧
      ¬Scoped Sample.layer c := by
  have hrun : (compile Sample.access Sample.layer (Sample.revenueBy ["channel"])).map (fun c =>
      (c.statement.sources, aliases c.statement)) = .ok
        ([⟨"analytics.sales", some "m0"⟩, ⟨"analytics.sales", some "m0"⟩],
          [some "m1", some "m0", some "m0"]) := by decide +kernel
  obtain ⟨c, hc, hx⟩ := map_eq_ok.1 hrun
  obtain ⟨hs, ha⟩ := Prod.mk.inj hx
  refine ⟨c, hc, hs, fun h => ?_⟩
  have hm := h.introduced (some "m1") (ha ▸ List.mem_cons_self)
  rw [hs] at hm
  exact absurd hm (by decide)

/-! ## Fan-out -/

/-- The joins of a search, each with whether it leads from its left model to its right one. -/
def traversals : (reached : List String) → List JoinDefinition → List (JoinDefinition × Bool)
  | _, [] => []
  | reached, j :: path =>
    (j, j.leftModel ∈ reached) :: traversals (j.leftModel :: j.rightModel :: reached) path

/-- The join leads to a model on its "many" side. -/
def Multiplies (t : JoinDefinition × Bool) : Prop :=
  (t.1.relationship = .oneToMany ∧ t.2 = true) ∨ (t.1.relationship = .manyToOne ∧ t.2 = false)

/-- The joins of a compiled query that multiply rows are declared safe. -/
def FanoutSafe (layer : SemanticLayer) (c : CompiledSemanticQuery) : Prop :=
  ∀ path, path.map (·.name) = c.joins → (∀ j ∈ path, j ∈ layer.definition.joins) →
    ∀ t ∈ traversals [c.semanticModel] path, Multiplies t → t.1.fanoutSafe = true

theorem mem_traversals {reached : List String} {path : List JoinDefinition}
    {t : JoinDefinition × Bool} (h : t ∈ traversals reached path) : t.1 ∈ path := by
  induction path generalizing reached with
  | nil => cases h
  | cons j path ih =>
    rcases List.mem_cons.1 h with rfl | h
    · exact List.mem_cons_self
    · exact List.mem_cons_of_mem _ (ih h)

theorem Path.mem {joins : List JoinDefinition} {reached remaining : List String}
    {path : List JoinDefinition} (h : Path joins reached remaining path) : ∀ j ∈ path, j ∈ joins := by
  induction h with
  | done => intro j hj; cases hj
  | step hfind _ ih =>
    intro j' hj'
    rcases List.mem_cons.1 hj' with rfl | hj'
    · exact List.mem_of_find?_eq_some hfind
    · exact ih j' hj'

/-- The names of joins identify them. -/
theorem joins_unique {path path' : List JoinDefinition}
    (hp : ∀ j ∈ path, j ∈ layer.definition.joins) (hp' : ∀ j ∈ path', j ∈ layer.definition.joins)
    (h : path.map (·.name) = path'.map (·.name)) : path = path' := by
  induction path generalizing path' with
  | nil => exact (List.map_eq_nil_iff.1 h.symm).symm
  | cons j path ih =>
    cases path' with
    | nil => cases h
    | cons j' path' =>
      rw [List.forall_mem_cons] at hp hp'
      obtain ⟨hj, hrest⟩ := List.cons.inj h
      rw [List.inj_on_of_nodup_map layer.definition.distinct.2 hp.1 hp'.1 hj, ih hp.2 hp'.2 hrest]

/-- **No silent fan-out**, but for many-to-one joins that are taken from the right to the left:
    the compiler looks at the relationship and not at the direction. -/
theorem fanout_iff (access : Access) (layer : SemanticLayer) (query : MetricQuery)
    (c : CompiledSemanticQuery) (h : compile access layer query = .ok c) :
    FanoutSafe layer c ↔ ∀ base path, Searched layer query base path →
      ∀ t ∈ traversals [base] path, t.1.relationship = .manyToOne → t.2 = false →
        t.1.fanoutSafe = true := by
  obtain ⟨metrics, dimensions, hres, -, -, ⟨hplain, h⟩ | ⟨-, base, joins, p, h⟩⟩ := compile_cases h
  · obtain ⟨metrics', dimensions', model, p, hres', -, hnames, -, h⟩ :=
      SemanticQueryCompiler.compile_ok h
    constructor
    · rintro - base path ⟨metrics₁, dimensions₁, hres₁, hbase, hpath⟩ t ht
      obtain ⟨rfl, rfl⟩ := hres'.unique hres₁
      have hb : base ∈ modelNames metrics₁ dimensions₁ := by
        refine mem_modelNames.2 (Or.inl (List.mem_dedup.1 ?_))
        rw [hbase]; exact List.mem_cons_self
      rw [hnames, List.mem_singleton] at hb
      subst hb
      rw [hnames, show [model.name].filter (· ≠ model.name) = [] by simp] at hpath
      rw [Path.unique .done hpath] at ht
      cases ht
    · intro _ path hpath _ t ht
      rw [h.join_names, List.map_eq_nil_iff] at hpath
      subst hpath
      cases ht
  · have hsearch := h.searched hres
    have hmem := (joinPath_path (Nat.le_refl _) h.path).mem
    have hemit := h.emit_right
    constructor
    · intro hs base' path hsearch' t ht hrel hdir
      obtain ⟨rfl, rfl⟩ := hsearch.unique hsearch'
      exact hs path h.join_names.symm hmem t (h.semantic ▸ ht) (Or.inr ⟨hrel, hdir⟩)
    · intro hcond path hpath hlayer t ht hmult
      cases joins_unique hlayer hmem (hpath.trans h.join_names)
      rw [h.semantic] at ht
      rcases hmult with ⟨hrel, -⟩ | ⟨hrel, hdir⟩
      · obtain ⟨i, -, hsafe, -⟩ := exists_of_mem_left hemit (mem_traversals ht)
        by_contra hno
        exact hsafe ⟨hrel, by simpa using hno⟩
      · exact hcond _ _ hsearch t ht hrel hdir

/-- Joins that are declared many-to-one from the sales to the others. -/
theorem fanout_regions :
    ∃ c, compile Sample.access Sample.layer (Sample.revenueBy ["region", "carrier"]) = .ok c ∧
      FanoutSafe Sample.layer c := by
  obtain ⟨c, hc⟩ := exists_ok
    (x := compile Sample.access Sample.layer (Sample.revenueBy ["region", "carrier"]))
    (by decide +kernel)
  have hres : Resolved Sample.layer (Sample.revenueBy ["region", "carrier"])
      [("sales", Sample.revenue)] [("regions", Sample.region), ("carriers", Sample.carrier)] :=
    ⟨mapM_eq_ok.1 (by decide +kernel), mapM_eq_ok.1 (by decide +kernel)⟩
  have hpath : joinPath Sample.access Sample.layer 2 ["sales"] ["regions", "carriers"] =
      .ok [Sample.salesRegions, Sample.salesCarriers] := by decide +kernel
  refine ⟨c, hc, (fanout_iff _ _ _ _ hc).2 fun base path hsearch => ?_⟩
  obtain ⟨rfl, rfl⟩ := Searched.unique ⟨_, _, hres, rfl, joinPath_path (Nat.le_refl _) hpath⟩ hsearch
  decide +kernel

/-- **A silent fan-out**: every booking of a sale adds its revenue once more. -/
theorem bookings_fan_out :
    ∃ c, compile Sample.access Sample.layer (Sample.revenueBy ["channel"]) = .ok c ∧
      ¬FanoutSafe Sample.layer c := by
  have hrun : (compile Sample.access Sample.layer (Sample.revenueBy ["channel"])).map (fun c =>
      (c.joins, c.semanticModel)) = .ok (["bookings_sales"], "sales") := by decide +kernel
  obtain ⟨c, hc, hx⟩ := map_eq_ok.1 hrun
  obtain ⟨hj, hb⟩ := Prod.mk.inj hx
  refine ⟨c, hc, fun h => ?_⟩
  have hsafe := h [Sample.bookingsSales] hj.symm (by decide +kernel) (Sample.bookingsSales, false)
    (by rw [hb]; decide +kernel) (Or.inr ⟨rfl, rfl⟩)
  cases hsafe

/-! ## Bindings -/

/-- The words of a text. -/
def words (text : String) : List String :=
  (text.toList.splitBy fun a b => isWord a && isWord b).map String.ofList
where
  isWord (c : Char) : Bool := c.isAlphanum || c = '_'

/-- Every alias in a join condition is bound to the same tables in both queries. -/
def SameBindings (c c' : CompiledSemanticQuery) : Prop :=
  ∀ i, i ∈ c.statement.joins ∨ i ∈ c'.statement.joins → ∀ a ∈ words i.sqlOn, ∀ t,
    (Source.mk t (some a) ∈ c.statement.sources ↔ Source.mk t (some a) ∈ c'.statement.sources)

/-- The model that comes `k`-th in the request is introduced with the table `t`. -/
def TableAt (layer : SemanticLayer) (query : MetricQuery) (k : Nat) (t : String) : Prop :=
  ¬Plain layer query ∧ ∃ metrics dimensions base path m, Resolved layer query metrics dimensions ∧
    Searched layer query base path ∧ m ∈ layer.definition.models ∧
    (modelNames metrics dimensions)[k]? = some m.name ∧
    m.name ∈ base :: path.map (·.rightModel) ∧ m.table = t

/-- At the positions that the join conditions refer to, two requests have the same tables. -/
def SamePositions (layer : SemanticLayer) (query query' : MetricQuery) : Prop :=
  ∀ base path, Searched layer query base path ∨ Searched layer query' base path →
    ∀ j ∈ path, ∀ k, s!"m{k}" ∈ words j.sqlOn →
      ∀ t, (TableAt layer query k t ↔ TableAt layer query' k t)

theorem getElem?_eq_some_iff_idxOf {names : List String} (hn : names.Nodup) {n : String} {k : Nat} :
    names[k]? = some n ↔ n ∈ names ∧ names.idxOf n = k := by
  constructor
  · intro h
    obtain ⟨hk, rfl⟩ := List.getElem?_eq_some_iff.1 h
    exact ⟨List.getElem_mem hk, hn.idxOf_getElem k hk⟩
  · rintro ⟨hm, rfl⟩
    exact List.getElem?_idxOf hm

/-- The models that the search introduces are selected. -/
theorem Searched.route_mem {metrics : List (String × MetricDefinition)}
    {dimensions : List (String × DimensionDefinition)} {base n : String}
    {path : List JoinDefinition} (hres : Resolved layer query metrics dimensions)
    (h : Searched layer query base path) (hn : n ∈ base :: path.map (·.rightModel)) :
    n ∈ modelNames metrics dimensions := by
  obtain ⟨metrics', dimensions', hres', hbase, hpath⟩ := h
  obtain ⟨rfl, rfl⟩ := hres.unique hres'
  have hb : base ∈ modelNames metrics' dimensions' := by
    refine mem_modelNames.2 (Or.inl (List.mem_dedup.1 ?_))
    rw [hbase]; exact List.mem_cons_self
  rcases List.mem_cons.1 hn with rfl | hn
  · exact hb
  · obtain ⟨j, hj, rfl⟩ := List.mem_map.1 hn
    rcases (hpath.endpoints j hj).2 with hr | hr
    · rw [List.mem_singleton.1 hr]; exact hb
    · exact List.mem_of_mem_filter hr

/-- A query on one model has no joins. -/
theorem Plain.searched (h : Plain layer query) {base : String} {path : List JoinDefinition}
    (hs : Searched layer query base path) : path = [] := by
  obtain ⟨metrics, dimensions, model, hres, hnames, -⟩ := h
  obtain ⟨metrics', dimensions', hres', hbase, hpath⟩ := hs
  obtain ⟨rfl, rfl⟩ := hres.unique hres'
  have hb : base ∈ modelNames metrics' dimensions' := by
    refine mem_modelNames.2 (Or.inl (List.mem_dedup.1 ?_))
    rw [hbase]; exact List.mem_cons_self
  rw [hnames, List.mem_singleton] at hb
  subst hb
  rw [hnames, show [model.name].filter (· ≠ model.name) = [] by simp] at hpath
  exact Path.unique .done hpath

/-- The aliases of the production path are those of the positions. -/
theorem Joined.bindings {metrics : List (String × MetricDefinition)}
    {dimensions : List (String × DimensionDefinition)} {base : SemanticModelDefinition}
    {joins : List JoinDefinition} {p : Predicates} (hres : Resolved layer query metrics dimensions)
    (h : Joined access layer query metrics dimensions (modelNames metrics dimensions) base joins p c)
    (hplain : ¬Plain layer query) (a t : String) :
    Source.mk t (some a) ∈ c.statement.sources ↔ ∃ k, a = s!"m{k}" ∧ TableAt layer query k t := by
  have hsearch := h.searched hres
  obtain ⟨rights, hrights, hnames, hsources⟩ := h.sources hres
  have hnodup := modelNames_nodup metrics dimensions
  have hroute : (base :: rights).map (·.name) = base.name :: joins.map (·.rightModel) := by
    rw [List.map_cons, hnames]
  have hmem : ∀ m ∈ base :: rights, m ∈ layer.definition.models := by
    intro m hm
    rcases List.mem_cons.1 hm with rfl | hm
    · exact h.base_mem
    · exact hrights m hm
  rw [hsources, List.mem_map]
  constructor
  · rintro ⟨m, hm, he⟩
    injection he with ht ha
    have hin : m.name ∈ base.name :: joins.map (·.rightModel) :=
      hroute ▸ List.mem_map_of_mem hm
    refine ⟨(modelNames metrics dimensions).idxOf m.name, (Option.some.inj ha).symm, hplain,
      metrics, dimensions, base.name, joins, m, hres, hsearch, hmem m hm, ?_, hin, ht⟩
    exact (getElem?_eq_some_iff_idxOf hnodup).2 ⟨hsearch.route_mem hres hin, rfl⟩
  · rintro ⟨k, rfl, -, metrics', dimensions', base', path', m, hres', hsearch', hm, hk, hin, rfl⟩
    obtain ⟨rfl, rfl⟩ := hres.unique hres'
    obtain ⟨rfl, rfl⟩ := hsearch.unique hsearch'
    rw [← hroute] at hin
    obtain ⟨m', hm', he⟩ := List.mem_map.1 hin
    cases SemanticLayer.model_unique (hmem m' hm') hm he
    refine ⟨m, hm', ?_⟩
    rw [sourceOf, tableAlias, ((getElem?_eq_some_iff_idxOf hnodup).1 hk).2]

/-- **What the aliases of a compiled query are bound to**, and the conditions that it reads them
    in. -/
theorem compile_bindings (h : compile access layer query = .ok c) :
    (∀ on_, (∃ i ∈ c.statement.joins, i.sqlOn = on_) ↔
      ∃ base path, Searched layer query base path ∧ ∃ j ∈ path, j.sqlOn = on_) ∧
    ∀ a t, Source.mk t (some a) ∈ c.statement.sources ↔
      ∃ k, a = s!"m{k}" ∧ TableAt layer query k t := by
  obtain ⟨metrics, dimensions, hres, -, -, ⟨hplain, h⟩ | ⟨hplain, base, joins, p, h⟩⟩ :=
    compile_cases h
  · obtain ⟨_, _, _, _, -, -, -, -, h⟩ := SemanticQueryCompiler.compile_ok h
    refine ⟨fun on_ => ⟨?_, ?_⟩, fun a t => ⟨?_, ?_⟩⟩
    · rintro ⟨i, hi, -⟩
      rw [h.no_joins] at hi
      cases hi
    · rintro ⟨base, path, hs, j, hj, -⟩
      rw [hplain.searched hs] at hj
      cases hj
    · intro hsource
      rw [Statement.sources, h.source, h.no_joins, List.map_nil, List.mem_singleton] at hsource
      cases hsource
    · rintro ⟨k, -, hno, -⟩
      exact absurd hplain hno
  · refine ⟨fun on_ => ⟨?_, ?_⟩, h.bindings hres hplain⟩
    · rintro ⟨i, hi, rfl⟩
      obtain ⟨j, hj, -, m, -, -, rfl⟩ := exists_of_mem_right h.emit_right hi
      exact ⟨base.name, joins, h.searched hres, j, hj, rfl⟩
    · rintro ⟨base', path, hs, j, hj, rfl⟩
      obtain ⟨rfl, rfl⟩ := (h.searched hres).unique hs
      obtain ⟨i, hi, -, m, -, -, rfl⟩ := exists_of_mem_left h.emit_right hj
      exact ⟨_, hi, rfl⟩

/-- Requests that list the same models in the same order. -/
theorem SamePositions.of_names {query' : MetricQuery} {metrics : List (String × MetricDefinition)}
    {dimensions dimensions' : List (String × DimensionDefinition)}
    (hres : Resolved layer query metrics dimensions)
    (hres' : Resolved layer query' metrics dimensions')
    (hn : modelNames metrics dimensions = modelNames metrics dimensions') :
    SamePositions layer query query' := by
  have hsame : ∀ base path, Searched layer query base path ↔ Searched layer query' base path := by
    intro base path
    constructor
    · rintro ⟨metrics₁, dimensions₁, hres₁, hbase, hpath⟩
      obtain ⟨rfl, rfl⟩ := hres.unique hres₁
      exact ⟨_, _, hres', hbase, hn ▸ hpath⟩
    · rintro ⟨metrics₁, dimensions₁, hres₁, hbase, hpath⟩
      obtain ⟨rfl, rfl⟩ := hres'.unique hres₁
      exact ⟨_, _, hres, hbase, hn ▸ hpath⟩
  intro base path hs j hj k _ t
  have hs : Searched layer query base path := hs.elim id (hsame _ _).2
  have hplain : ¬Plain layer query := fun hp => by rw [hp.searched hs] at hj; cases hj
  have hplain' : ¬Plain layer query' := fun hp => by
    rw [hp.searched ((hsame _ _).1 hs)] at hj; cases hj
  constructor
  · rintro ⟨-, metrics₁, dimensions₁, base₁, path₁, m, hres₁, hs₁, hm, hk, hin, ht⟩
    obtain ⟨rfl, rfl⟩ := hres.unique hres₁
    exact ⟨hplain', _, _, base₁, path₁, m, hres', (hsame _ _).1 hs₁, hm, hn ▸ hk, hin, ht⟩
  · rintro ⟨-, metrics₁, dimensions₁, base₁, path₁, m, hres₁, hs₁, hm, hk, hin, ht⟩
    obtain ⟨rfl, rfl⟩ := hres'.unique hres₁
    exact ⟨hplain, _, _, base₁, path₁, m, hres, (hsame _ _).2 hs₁, hm, hn ▸ hk, hin, ht⟩

/-- **Join conditions and the order of the request**: the aliases in them stay bound to the same
    tables exactly if the positions that they count have the same tables. -/
theorem bindings_iff (access : Access) (layer : SemanticLayer) (query query' : MetricQuery)
    (c c' : CompiledSemanticQuery) (h : compile access layer query = .ok c)
    (h' : compile access layer query' = .ok c')
    (_hperm : query'.dimensions.Perm query.dimensions) :
    SameBindings c c' ↔ SamePositions layer query query' := by
  obtain ⟨hjoins, hsources⟩ := compile_bindings h
  obtain ⟨hjoins', hsources'⟩ := compile_bindings h'
  have alias_eq : ∀ {k l : Nat}, s!"m{k}" = s!"m{l}" → l = k := fun he =>
    (Text.toString_injective ((String.append_right_inj _).1 he)).symm
  constructor
  · intro hsame base path hs j hj k hk t
    have hi : ∃ i, (i ∈ c.statement.joins ∨ i ∈ c'.statement.joins) ∧ i.sqlOn = j.sqlOn := by
      rcases hs with hs | hs
      · obtain ⟨i, hi, he⟩ := (hjoins _).2 ⟨base, path, hs, j, hj, rfl⟩
        exact ⟨i, Or.inl hi, he⟩
      · obtain ⟨i, hi, he⟩ := (hjoins' _).2 ⟨base, path, hs, j, hj, rfl⟩
        exact ⟨i, Or.inr hi, he⟩
    obtain ⟨i, hi, he⟩ := hi
    have hb := hsame i hi s!"m{k}" (he ▸ hk) t
    rw [hsources, hsources'] at hb
    constructor
    · intro ht
      obtain ⟨k', hk', ht'⟩ := hb.1 ⟨k, rfl, ht⟩
      rwa [alias_eq hk'] at ht'
    · intro ht
      obtain ⟨k', hk', ht'⟩ := hb.2 ⟨k, rfl, ht⟩
      rwa [alias_eq hk'] at ht'
  · intro hpos i hi a ha t
    obtain ⟨base, path, hs, j, hj, he⟩ : ∃ base path, (Searched layer query base path ∨
        Searched layer query' base path) ∧ ∃ j ∈ path, j.sqlOn = i.sqlOn := by
      rcases hi with hi | hi
      · obtain ⟨base, path, hs, hj⟩ := (hjoins _).1 ⟨i, hi, rfl⟩
        exact ⟨base, path, Or.inl hs, hj⟩
      · obtain ⟨base, path, hs, hj⟩ := (hjoins' _).1 ⟨i, hi, rfl⟩
        exact ⟨base, path, Or.inr hs, hj⟩
    rw [hsources, hsources']
    refine exists_congr fun k => and_congr_right fun hk => ?_
    exact hpos base path hs j hj k (he ▸ hk ▸ ha) t

/-- A date before or after the region. -/
theorem bindings_flight_date :
    ∃ c c', compile Sample.access Sample.layer (Sample.revenueBy ["flight_date", "region"]) = .ok c ∧
      compile Sample.access Sample.layer (Sample.revenueBy ["region", "flight_date"]) = .ok c' ∧
      SameBindings c c' := by
  obtain ⟨c, hc⟩ := exists_ok
    (x := compile Sample.access Sample.layer (Sample.revenueBy ["flight_date", "region"]))
    (by decide +kernel)
  obtain ⟨c', hc'⟩ := exists_ok
    (x := compile Sample.access Sample.layer (Sample.revenueBy ["region", "flight_date"]))
    (by decide +kernel)
  have hres : Resolved Sample.layer (Sample.revenueBy ["flight_date", "region"])
      [("sales", Sample.revenue)] [("sales", Sample.flightDate), ("regions", Sample.region)] :=
    ⟨mapM_eq_ok.1 (by decide +kernel), mapM_eq_ok.1 (by decide +kernel)⟩
  have hres' : Resolved Sample.layer (Sample.revenueBy ["region", "flight_date"])
      [("sales", Sample.revenue)] [("regions", Sample.region), ("sales", Sample.flightDate)] :=
    ⟨mapM_eq_ok.1 (by decide +kernel), mapM_eq_ok.1 (by decide +kernel)⟩
  exact ⟨c, c', hc, hc', (bindings_iff _ _ _ _ _ _ hc hc' (by decide +kernel)).2
    (.of_names hres hres' (by decide +kernel))⟩

/-- **A condition that depends on the order of the request**: the second alias of the join with
    the regions is bound to the regions or to the carriers. -/
theorem carriers_as_regions :
    ∃ c c', compile Sample.access Sample.layer (Sample.revenueBy ["region", "carrier"]) = .ok c ∧
      compile Sample.access Sample.layer (Sample.revenueBy ["carrier", "region"]) = .ok c' ∧
      ¬SameBindings c c' := by
  have hrun : (compile Sample.access Sample.layer (Sample.revenueBy ["region", "carrier"])).map
      (fun c => (c.statement.joins.map (·.sqlOn), c.statement.sources)) = .ok
        (["m0.region_id = m1.id", "m0.carrier_id = m2.id"],
          [⟨"analytics.sales", some "m0"⟩, ⟨"analytics.regions", some "m1"⟩,
            ⟨"analytics.carriers", some "m2"⟩]) := by decide +kernel
  have hrun' : (compile Sample.access Sample.layer (Sample.revenueBy ["carrier", "region"])).map
      (fun c => c.statement.sources) = .ok
        [⟨"analytics.sales", some "m0"⟩, ⟨"analytics.regions", some "m2"⟩,
          ⟨"analytics.carriers", some "m1"⟩] := by decide +kernel
  obtain ⟨c, hc, hx⟩ := map_eq_ok.1 hrun
  obtain ⟨c', hc', hs'⟩ := map_eq_ok.1 hrun'
  obtain ⟨hj, hs⟩ := Prod.mk.inj hx
  refine ⟨c, c', hc, hc', fun h => ?_⟩
  obtain ⟨i, hi, he⟩ := List.mem_map.1 (hj ▸ List.mem_cons_self)
  have hb := h i (Or.inl hi) "m1" (by rw [he]; decide +kernel) "analytics.regions"
  rw [hs, hs'] at hb
  exact absurd (hb.1 (by decide)) (by decide)

end ProductionSemanticQueryCompiler

end TracciaRuntime.Semantics
