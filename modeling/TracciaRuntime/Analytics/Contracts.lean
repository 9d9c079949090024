/-
  Traccia Runtime formalization — the contracts of the analytical graphs
  (`analytics/contracts.py`).

  * `Values`: the values that handlers return and pass on, with the library functions that look
    into them;
  * `AnalyticalNode`, `AnalyticalGraph`: what the validators accept, with the validators as
    definitions of their own;
  * `validateDag_ok`: a graph is accepted iff it is small enough, its identifiers are unique
    and its nodes can be listed each after its dependencies.

  Clock readings, timeouts and delays, and what only handlers, caches and telemetry read of a
  node or a result, are left out.
-/
import TracciaRuntime.Dag.Search
import TracciaRuntime.Py.Json
import TracciaRuntime.Semantics.Layer
import TracciaRuntime.Types

namespace TracciaRuntime.Analytics

open Py
open Semantics (showSorted)

variable {V : Type}

/-- Exceptions. -/
inductive Raised where
  | cancelled
  | timeout (message : String)
  | other (typeName message : String)
  deriving DecidableEq

namespace Raised

def typeName : Raised → String
  | cancelled => "CancelledError"
  | timeout _ => "TimeoutError"
  | other t _ => t

def message : Raised → String
  | cancelled => ""
  | timeout m | other _ m => m

/-- `f"{type(exc).__name__}: {exc}"`. -/
def text (e : Raised) : String := s!"{e.typeName}: {e.message}"

def configuration (message : String) : Raised := other "ConfigurationError" message
def budgetExceeded (message : String) : Raised := other "BudgetExceededError" message
def runtime (message : String) : Raised := other "RuntimeError" message
def keyError (key : String) : Raised := other "KeyError" s!"'{key}'"
def conflict (c : Conflict) : Raised := other "ConflictError" c.message

end Raised

/-- What `_resolve_inputs` sees of a value. -/
inductive View (V : Type) where
  | mapping (items : Dict String V)
  | list (items : List V)
  | other (typeName : String)

structure Values (V : Type) where
  view : V → View V
  object : Dict String V → V
  /-- `jsonschema.validate` -/
  validate : V → Dict String V → Except Raised Unit
  /-- the length of `json.dumps(value, default=str).encode()` -/
  encodedLength : V → Except Raised Nat
  /-- a value read back from the JSON text it was stored as -/
  reread : V → V
  reread_reread : ∀ v, reread (reread v) = reread v

inductive AnalyticalNodeKind where
  | semanticQuery | joinResults | comparePeriods | calculate | modelCall | rank | verify | compose
  deriving DecidableEq

def AnalyticalNodeKind.value : AnalyticalNodeKind → String
  | semanticQuery => "semantic_query"
  | joinResults => "join_results"
  | comparePeriods => "compare_periods"
  | calculate => "calculate"
  | modelCall => "model_call"
  | rank => "rank"
  | verify => "verify"
  | compose => "compose"

inductive NodeStatus where
  | pending | running | completed | failed | skipped | cancelled
  deriving DecidableEq

inductive GraphStatus where
  | pending | running | completed | failed | cancelled
  deriving DecidableEq

structure NodeRetryPolicy where
  maximumAttempts : Nat := 1
  maximumAttempts_range : 1 ≤ maximumAttempts ∧ maximumAttempts ≤ 10 := by decide

structure NodeCachePolicy where
  enabled : Bool := false

structure NodeBudget where
  maximumRows : Nat := 10000
  maximumRows_range : 1 ≤ maximumRows ∧ maximumRows ≤ 1000000 := by decide
  maximumBytes : Nat := 10000000
  maximumBytes_pos : 1 ≤ maximumBytes := by decide
  maximumCostUsd : Option ℚ := none
  maximumCostUsd_nonneg : ∀ c ∈ maximumCostUsd, 0 ≤ c := by simp

structure ResultReference where
  nodeId : String
  path : Option String := none
  deriving DecidableEq

/-! ## Nodes -/

structure NodeFields (V : Type) where
  id : String
  kind : AnalyticalNodeKind
  dependencies : List String := []
  inputs : Dict String ResultReference := []
  configuration : Dict String V := []
  inputSchema : Dict String V
  outputSchema : Dict String V := []
  retry : NodeRetryPolicy := {}
  cache : NodeCachePolicy := {}
  budget : NodeBudget := {}
  concurrencyKey : Option String := none

/-- `AnalyticalNode.validate_references`. -/
def NodeFields.validateReferences (n : NodeFields V) : Except String Unit := do
  require (∀ r ∈ n.inputs.values, r.nodeId ∈ n.dependencies)
    "every input result reference must be declared as a dependency"
  require (n.id ∉ n.dependencies) "a node cannot depend on itself"

structure AnalyticalNode (V : Type) extends NodeFields V where
  valid : toNodeFields.validateReferences = .ok ()

namespace AnalyticalNode
variable (n : AnalyticalNode V)

theorem valid_iff {n : NodeFields V} : n.validateReferences = .ok () ↔
    (∀ r ∈ n.inputs.values, r.nodeId ∈ n.dependencies) ∧ n.id ∉ n.dependencies := by
  simp [NodeFields.validateReferences, bind_eq_ok]

theorem referenced {name : String} {r : ResultReference} (h : (name, r) ∈ n.inputs) :
    r.nodeId ∈ n.dependencies :=
  (valid_iff.1 n.valid).1 r (List.mem_map_of_mem (f := (·.2)) h)

/-- `if node.concurrency_key`. -/
def key : Option String := n.concurrencyKey.filter (· ≠ "")

end AnalyticalNode

/-! ## Graphs -/

structure GraphFields (V : Type) where
  id : String
  nodes : List (AnalyticalNode V)
  nodes_ne : nodes ≠ []
  maximumConcurrency : Nat := 4
  maximumConcurrency_range : 1 ≤ maximumConcurrency ∧ maximumConcurrency ≤ 128 := by decide
  maximumNodes : Nat := 100
  maximumNodes_range : 1 ≤ maximumNodes ∧ maximumNodes ≤ 1000 := by decide

namespace GraphFields
variable (g : GraphFields V)

def ids : List String := g.nodes.map (·.id)

/-- `nodes[node_id]` of `_schedule`. -/
def node (id : String) : Option (AnalyticalNode V) := g.nodes.find? fun n => n.id = id

/-- `dependencies[node_id]`. -/
def dependencies (id : String) : List String :=
  match g.node id with
  | some n => n.dependencies
  | none => []

/-- `AnalyticalGraph.validate_dag`; every recursive call of `visit` adds an identifier to
    `visiting`. -/
def validateDag : Except String Unit := do
  require (g.nodes.length ≤ g.maximumNodes) "graph exceeds maximum_nodes"
  require g.ids.Nodup "graph node identifiers must be unique"
  let _ ← g.nodes.mapM fun n =>
    let missing := n.dependencies.filter (· ∉ g.ids)
    require (missing = []) s!"node '{n.id}' has unknown dependencies {showSorted missing}"
  let _ ← g.ids.foldlM (fun visited id => Dag.visit g.dependencies
    "analytical graph contains a dependency cycle" (g.nodes.length + 1) [] id visited) []

end GraphFields

namespace GraphFields
variable {g : GraphFields V} {id : String}

theorem mem_of_node {n : AnalyticalNode V} (h : g.node id = some n) : n ∈ g.nodes ∧ n.id = id := by
  have hid := List.find?_some h
  exact ⟨List.mem_of_find?_eq_some h, by simpa using hid⟩

theorem exists_node (h : id ∈ g.ids) : ∃ n, g.node id = some n := by
  obtain ⟨n, hn, hid⟩ := List.mem_map.1 h
  rw [← Option.isSome_iff_exists, node, List.find?_isSome]
  exact ⟨n, hn, by simpa using hid⟩

theorem mem_ids_of_node {n : AnalyticalNode V} (h : g.node id = some n) : id ∈ g.ids := by
  obtain ⟨hn, rfl⟩ := mem_of_node h
  exact List.mem_map_of_mem hn

theorem dependencies_of_node {n : AnalyticalNode V} (h : g.node id = some n) :
    g.dependencies id = n.dependencies := by
  rw [dependencies, h]

/-- A listing of the identifiers, each after those it depends on. -/
def Order (g : GraphFields V) (l : List String) : Prop :=
  Dag.Sorted g.dependencies l ∧ ∀ a, a ∈ l ↔ a ∈ g.ids

/-- The loop over the nodes finds no unknown dependency. -/
theorem missing_ok {ids : List String} {nodes : List (AnalyticalNode V)} :
    (∃ r, (nodes.mapM fun n => require (n.dependencies.filter (· ∉ ids) = [])
      s!"node '{n.id}' has unknown dependencies {showSorted (n.dependencies.filter (· ∉ ids))}")
        = .ok r) ↔ ∀ n ∈ nodes, ∀ d ∈ n.dependencies, d ∈ ids := by
  have hnode : ∀ n : AnalyticalNode V, n.dependencies.filter (· ∉ ids) = [] ↔
      ∀ d ∈ n.dependencies, d ∈ ids := fun n => by simp [List.filter_eq_nil_iff]
  constructor
  · rintro ⟨r, hr⟩ n hn
    obtain ⟨u, -, hu⟩ := exists_of_mem_left (mapM_eq_ok.1 hr) hn
    exact (hnode n).1 (require_eq_ok.1 hu)
  · intro h
    refine ⟨nodes.map fun _ => (), mapM_eq_ok.2 ?_⟩
    rw [List.forall₂_map_right_iff, List.forall₂_same]
    exact fun n hn => require_eq_ok.2 ((hnode n).2 (h n hn))

theorem known (h : ∀ n ∈ g.nodes, ∀ d ∈ n.dependencies, d ∈ g.ids) {d : String}
    (hd : d ∈ g.dependencies id) : id ∈ g.ids ∧ d ∈ g.ids := by
  unfold dependencies at hd
  split at hd
  · rename_i n hn
    exact ⟨mem_ids_of_node hn, h n (mem_of_node hn).1 d hd⟩
  · cases hd

/-- **What the validator accepts.** -/
theorem validateDag_ok : g.validateDag = .ok () ↔ g.nodes.length ≤ g.maximumNodes ∧
    g.ids.Nodup ∧ (∀ n ∈ g.nodes, ∀ d ∈ n.dependencies, d ∈ g.ids) ∧ ∃ l, g.Order l := by
  unfold validateDag
  simp only [bind_eq_ok, require_eq_ok, exists_const]
  constructor
  · rintro ⟨hlen, hnodup, r, hr, l, hl, -⟩
    have hknown := missing_ok.1 ⟨r, hr⟩
    have hK : ∀ a d, a ∈ g.ids → d ∈ g.dependencies a → d ∈ g.ids := by
      intro a d ha hd
      obtain ⟨n, hn⟩ := exists_node ha
      rw [dependencies_of_node hn] at hd
      exact hknown n (mem_of_node hn).1 d hd
    exact ⟨hlen, hnodup, hknown, l, Dag.sorted_of_search hK hl⟩
  · rintro ⟨hlen, hnodup, hknown, l, hs, hl⟩
    obtain ⟨r, hr⟩ := missing_ok.2 hknown
    have hids : ∀ a d, d ∈ g.dependencies a → a ∈ g.ids ∧ d ∈ g.ids := fun a d hd => known hknown hd
    obtain ⟨l', hl'⟩ := Dag.search_acyclic "analytical graph contains a dependency cycle"
      ((Dag.acyclic_iff_sorted hids).2 ⟨l, hs, hl⟩) fun a d hd => (hids a d hd).2
    rw [show g.ids.length = g.nodes.length from List.length_map _] at hl'
    exact ⟨hlen, hnodup, r, hr, l', hl', rfl⟩

end GraphFields

structure AnalyticalGraph (V : Type) extends GraphFields V where
  valid : toGraphFields.validateDag = .ok ()

namespace AnalyticalGraph
variable (g : AnalyticalGraph V)

theorem nodup : g.ids.Nodup := (GraphFields.validateDag_ok.1 g.valid).2.1

theorem exists_order : ∃ l, g.Order l := (GraphFields.validateDag_ok.1 g.valid).2.2.2

theorem known {id d : String} (h : d ∈ g.dependencies id) : d ∈ g.ids :=
  (GraphFields.known (GraphFields.validateDag_ok.1 g.valid).2.2.1 h).2

/-- The fields of a graph besides its nodes, as they pass their own checks. -/
structure Options where
  id : String
  maximumConcurrency : Nat := 4
  maximumConcurrency_range : 1 ≤ maximumConcurrency ∧ maximumConcurrency ≤ 128 := by decide
  maximumNodes : Nat := 100
  maximumNodes_range : 1 ≤ maximumNodes ∧ maximumNodes ≤ 1000 := by decide

/-- `AnalyticalGraph(nodes=nodes, …)`: the check of the field comes before the validator. -/
def construct (options : Options) (nodes : List (AnalyticalNode V)) :
    Except String (AnalyticalGraph V) :=
  if hne : nodes = [] then .error "Tuple should have at least 1 item after validation, not 0"
  else
    let g : GraphFields V := {
      id := options.id
      nodes := nodes
      nodes_ne := hne
      maximumConcurrency := options.maximumConcurrency
      maximumConcurrency_range := options.maximumConcurrency_range
      maximumNodes := options.maximumNodes
      maximumNodes_range := options.maximumNodes_range }
    match hvalid : g.validateDag with
    | .ok () => .ok { g with valid := hvalid }
    | .error message => .error s!"Value error, {message}"

end AnalyticalGraph

/-! ## States -/

structure AnalyticalResult (V : Type) where
  id : String
  nodeId : String
  value : V
  rowCount : Option Nat := none
  costUsd : ℚ := 0
  costUsd_nonneg : 0 ≤ costUsd := by decide

/-- A result may cost nothing. -/
theorem AnalyticalResult.costUsd_zero : (0 : ℚ) ≤ 0 := by decide

structure NodeExecution where
  status : NodeStatus := .pending
  attempts : Nat := 0
  resultId : Option String := none
  error : Option String := none
  deriving DecidableEq

/-- The state of the execution of a graph.  `nodes` has an entry for each node of the graph;
    those for other identifiers mean nothing. -/
structure AnalyticalGraphState (V : Type) where
  tenantId : String
  userId : String
  status : GraphStatus := .pending
  nodes : String → NodeExecution := fun _ => {}
  results : String → Option (AnalyticalResult V) := fun _ => none
  version : Nat := 0

structure GraphExecutionContext where
  tenantId : String
  userId : String
  deriving DecidableEq

end TracciaRuntime.Analytics
