/-
  The validation of an analytical graph: it accepts exactly the graphs without cycles, and its
  recursion ends on all others too.
-/
import TracciaRuntime.Analytics.Contracts

namespace TracciaRuntime.Analytics

open Py

variable {V : Type}

/-- A node with the first identifier lists the second as a dependency. -/
def DependsOn (nodes : List (AnalyticalNode V)) (a d : String) : Prop :=
  ∃ n ∈ nodes, n.id = a ∧ d ∈ n.dependencies

/-- The identifiers are distinct, the dependencies are known, and none is circular. -/
structure WellFormed (nodes : List (AnalyticalNode V)) : Prop where
  nodup : (nodes.map (·.id)).Nodup
  known : ∀ n ∈ nodes, ∀ d ∈ n.dependencies, d ∈ nodes.map (·.id)
  acyclic : ∀ a, ¬ Relation.TransGen (DependsOn nodes) a a

namespace GraphFields

variable {g : GraphFields V}

theorem node_of_mem (hn : g.ids.Nodup) {n : AnalyticalNode V} (h : n ∈ g.nodes) :
    g.node n.id = some n := by
  obtain ⟨m, hm⟩ := exists_node (List.mem_map_of_mem (f := (·.id)) h)
  obtain ⟨hmem, hid⟩ := mem_of_node hm
  rw [hm, List.inj_on_of_nodup_map hn hmem h hid]

theorem mem_dependencies (hn : g.ids.Nodup) {a d : String} :
    d ∈ g.dependencies a ↔ DependsOn g.nodes a d := by
  constructor
  · intro hd
    unfold dependencies at hd
    split at hd
    · rename_i n hnode
      obtain ⟨hmem, hid⟩ := mem_of_node hnode
      exact ⟨n, hmem, hid, hd⟩
    · cases hd
  · rintro ⟨n, hmem, rfl, hd⟩
    rwa [dependencies_of_node (node_of_mem hn hmem)]

/-- The two notions of a cycle. -/
theorem acyclic_iff (hn : g.ids.Nodup) :
    Dag.Acyclic g.dependencies ↔ ∀ a, ¬ Relation.TransGen (DependsOn g.nodes) a a := by
  have hrel : (fun a d => d ∈ g.dependencies a) = DependsOn g.nodes := by
    ext a d
    exact mem_dependencies hn
  rw [Dag.Acyclic, hrel]

theorem validateDag_iff : g.validateDag = .ok () ↔
    g.nodes.length ≤ g.maximumNodes ∧ WellFormed g.nodes := by
  rw [validateDag_ok]
  constructor
  · rintro ⟨hlen, hn, hk, ho⟩
    exact ⟨hlen, hn, hk, (acyclic_iff hn).1 ((Dag.acyclic_iff_sorted fun a d => known hk).2 ho)⟩
  · rintro ⟨hlen, h⟩
    exact ⟨hlen, h.nodup, h.known,
      (Dag.acyclic_iff_sorted fun a d => known h.known).1 ((acyclic_iff h.nodup).2 h.acyclic)⟩

/-- `for node_id in ids: visit(node_id)` comes to an end. -/
theorem visits (hk : ∀ n ∈ g.nodes, ∀ d ∈ n.dependencies, d ∈ g.ids) :
    Dag.Visits g.dependencies "analytical graph contains a dependency cycle" [] g.ids []
      (g.ids.foldlM (fun visited id => Dag.visit g.dependencies
        "analytical graph contains a dependency cycle" (g.nodes.length + 1) [] id visited) []) := by
  refine Dag.visits (fun a d hd => (known hk hd).2) ?_ List.nodup_nil (List.nil_subset _)
    (List.Subset.refl _) []
  simp [ids]

end GraphFields

namespace AnalyticalGraph

theorem construct_ok {options : Options} {nodes : List (AnalyticalNode V)} :
    (∃ g, construct options nodes = .ok g) ↔
      nodes ≠ [] ∧ nodes.length ≤ options.maximumNodes ∧ WellFormed nodes := by
  unfold construct
  split_ifs with hne
  · simp [hne]
  · dsimp only
    constructor
    · rintro ⟨g, hg⟩
      split at hg
      · rename_i hvalid
        exact ⟨hne, GraphFields.validateDag_iff.1 hvalid⟩
      · cases hg
    · rintro ⟨-, h⟩
      split
      · exact ⟨_, rfl⟩
      · rename_i message hvalid
        rw [GraphFields.validateDag_iff.2 h] at hvalid
        cases hvalid

theorem wellFormed_nil : WellFormed ([] : List (AnalyticalNode V)) where
  nodup := List.nodup_nil
  known n hn := by cases hn
  acyclic a ha := by
    obtain ⟨d, ⟨n, hn, -⟩, -⟩ := Relation.TransGen.head'_iff.1 ha
    cases hn

end AnalyticalGraph

end TracciaRuntime.Analytics
