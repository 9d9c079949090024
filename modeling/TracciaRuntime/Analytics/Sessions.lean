/-
  Traccia Runtime formalization — the drives of one graph.

  * `Session`: drives one after the other; a process can crash at any point, which loses what
    it has in memory;
  * `Fleet`: any number of drives at once, in any number of processes, over the one row.
-/
import TracciaRuntime.Analytics.Driver
import TracciaRuntime.Machine.Moves

namespace TracciaRuntime.Analytics

variable {V : Type}

def Drive.finished (d : Drive V) : Bool :=
  match d.stage with
  | .ended _ => true
  | _ => false

/-! ## One drive after the other -/

structure Session (V : Type) where
  row : Option (AnalyticalGraphState V) := none
  drive : Option (Drive V) := none

inductive SessionAct (V : Type) where
  | run (context : GraphExecutionContext)
  | resume (context : GraphExecutionContext)
  | go (a : Act V)
  | crash

namespace Session
variable (e : Engine V) (g : AnalyticalGraph V) (s : Session V)

/-- There is no drive that still runs. -/
def Idle : Prop := ∀ d ∈ s.drive, d.finished

instance : Decidable s.Idle :=
  match h : s.drive with
  | none => .isTrue (by simp [Idle, h])
  | some d => decidable_of_iff (d.finished) (by simp [Idle, h])

def step : SessionAct V → Option (Session V)
  | .run context => if s.Idle then some { s with drive := some (Drive.run context) } else none
  | .resume context =>
    if s.Idle then
      match Drive.resume g.id context s.row with
      | .ok d => some { s with drive := some d }
      | .error _ => some s
    else none
  | .go a => do
    let d ← s.drive
    let (row, d) ← d.step e g s.row a
    some ⟨row, some d⟩
  | .crash => some { s with drive := none }

end Session

/-! ## Any number of drives -/

structure Fleet (V : Type) where
  row : Option (AnalyticalGraphState V) := none
  drives : Nat → Option (Drive V) := fun _ => none

inductive FleetAct (V : Type) where
  | run (k : Nat) (context : GraphExecutionContext)
  | resume (k : Nat) (context : GraphExecutionContext)
  | go (k : Nat) (a : Act V)
  | crash (k : Nat)

namespace Fleet
variable (e : Engine V) (g : AnalyticalGraph V) (s : Fleet V)

def step : FleetAct V → Option (Fleet V)
  | .run k context =>
    if (s.drives k).isNone then
      some { s with drives := Function.update s.drives k (some (Drive.run context)) }
    else none
  | .resume k context =>
    if (s.drives k).isNone then
      match Drive.resume g.id context s.row with
      | .ok d => some { s with drives := Function.update s.drives k (some d) }
      | .error _ => some s
    else none
  | .go k a => do
    let d ← s.drives k
    let (row, d) ← d.step e g s.row a
    some ⟨row, Function.update s.drives k (some d)⟩
  | .crash k => some { s with drives := Function.update s.drives k none }

end Fleet

/-! ## A sample -/

namespace Sample

inductive Value where
  | text (s : String)
  | record (items : List (String × Value))

def values : Values Value where
  view
    | .text _ => .other "str"
    | .record items => .mapping items
  object := .record
  validate _ _ := .ok ()
  encodedLength _ := .ok 2
  reread v := v
  reread_reread _ := rfl

def engine (store : StoreKind) : Engine Value where
  values := values
  store := store
  handlers := [.semanticQuery]

def fields (id : String) (dependencies : List String)
    (inputs : Py.Dict String ResultReference := []) : NodeFields Value where
  id := id
  kind := .semanticQuery
  dependencies := dependencies
  inputs := inputs
  inputSchema := []

/-- Three nodes that depend on nothing. -/
def graph : AnalyticalGraph Value where
  id := "g"
  nodes := [{ toNodeFields := fields "a" [], valid := by decide },
    { toNodeFields := fields "b" [], valid := by decide },
    { toNodeFields := fields "c" [], valid := by decide }]
  nodes_ne := by simp
  valid := by decide +kernel

def context : GraphExecutionContext := ⟨"t", "u"⟩

def checkpoint (a : Actor) : List (Act Value) := [.acquire a, .commit, .answer]

/-- `run` up to its first wave. -/
def started : List (Act Value) := [.create, .created, .locked] ++ checkpoint .driver

def result (i : String) : AnalyticalResult Value := { id := "r", nodeId := i, value := .text i }

/-- A node without a concurrency key runs to its end. -/
def handled (i : String) : List (Act Value) :=
  .node i .admitted :: checkpoint (.node i) ++ .node i (.returned (result i)) :: checkpoint (.node i)

end Sample

end TracciaRuntime.Analytics
