/-
  Traccia Runtime formalization — the registries of analytical methods and of model services
  (`methods/registry.py`, `model_services/registry.py`).

  Of a manifest, what the registries look at.
-/
import TracciaRuntime.Analytics.Contracts

namespace TracciaRuntime

open Py Analytics

inductive MethodLifecycle where
  | draft | validated | approved | deprecated
  deriving DecidableEq

structure AnalyticalMethodManifest where
  name : String
  version : String
  lifecycle : MethodLifecycle := .draft
  deriving DecidableEq

structure ModelServiceManifest where
  name : String
  version : String
  enabled : Bool := true
  deriving DecidableEq

/-- `sorted(items, key=version)[-1]`. -/
def lastVersion {α : Type} (version : α → String) (items : List α) : Option α :=
  (items.mergeSort fun a b => version a ≤ version b).getLast?

/-- `version or 'latest'`. -/
def shownVersion (version : Option String) : String :=
  if version.getD "" = "" then "latest" else version.getD ""

/-- Items with their manifests, each under the name and the version of its manifest. -/
structure VersionedItems (M I : Type) (keyOf : M → String × String) where
  items : Dict (String × String) (M × I) := []
  nodup : items.keys.Nodup := by simp
  keyed : ∀ k x, (k, x) ∈ items → keyOf x.1 = k := by simp

/-- A registration; it fails with this text. -/
def VersionedItems.add {M I : Type} {keyOf : M → String × String}
    (registry : VersionedItems M I keyOf) (text : String) (manifest : M) (item : I) :
    Except Raised (VersionedItems M I keyOf) :=
  if (registry.items.get (keyOf manifest)).isSome then .error (.configuration text)
  else .ok {
    items := registry.items.set (keyOf manifest) (manifest, item)
    nodup := Dict.nodup_keys_set _ _ registry.nodup
    keyed := by
      intro k x h
      have hget := Dict.get_of_mem (Dict.nodup_keys_set _ _ registry.nodup) h
      rw [Dict.get_set] at hget
      split at hget
      · rename_i hk
        cases hget
        exact hk.symm
      · exact registry.keyed k x (Dict.mem_of_get hget) }

/-! ## Methods -/

abbrev AnalyticalMethodRegistry (I : Type) :=
  VersionedItems AnalyticalMethodManifest I fun m => (m.name, m.version)

namespace AnalyticalMethodRegistry
variable {I : Type} (registry : AnalyticalMethodRegistry I)

/-- `register`. -/
def register (manifest : AnalyticalMethodManifest) (implementation : I) :
    Except Raised (AnalyticalMethodRegistry I) :=
  registry.add s!"analytical method {manifest.name}@{manifest.version} exists" manifest
    implementation

/-- The candidates of `resolve`. -/
def candidates (name : String) (version : Option String) : List (AnalyticalMethodManifest × I) :=
  let named := (registry.items.filter fun i => i.1.1 = name).map (·.2)
  let versioned := match version with
    | some v => named.filter fun (x : AnalyticalMethodManifest × I) => x.1.version = v
    | none => named
  versioned.filter fun (x : AnalyticalMethodManifest × I) => x.1.lifecycle ≠ .deprecated

/-- `resolve`. -/
def resolve (name : String) (version : Option String) :
    Except Raised (AnalyticalMethodManifest × I) :=
  match lastVersion (·.1.version) (candidates registry name version) with
  | some x => .ok x
  | none => .error (.other "NotFoundError"
      s!"analytical method '{name}' version '{shownVersion version}' not found")

end AnalyticalMethodRegistry

/-! ## Model services -/

abbrev ModelServiceRegistry (S : Type) :=
  VersionedItems ModelServiceManifest S fun m => (m.name, m.version)

namespace ModelServiceRegistry
variable {S : Type} (registry : ModelServiceRegistry S)

/-- `register`. -/
def register (manifest : ModelServiceManifest) (service : S) :
    Except Raised (ModelServiceRegistry S) :=
  registry.add s!"model service {manifest.name}@{manifest.version} already exists" manifest service

/-- The candidates of `_resolve`. -/
def candidates (name : String) (version : Option String) : List (ModelServiceManifest × S) :=
  (registry.items.filter fun i => i.1.1 = name ∧ (version = none ∨ version = some i.1.2) ∧
    i.2.1.enabled = true).map (·.2)

/-- `_resolve`. -/
def resolve (name : String) (version : Option String) :
    Except Raised (ModelServiceManifest × S) :=
  match lastVersion (·.1.version) (candidates registry name version) with
  | some x => .ok x
  | none => .error (.other "NotFoundError"
      s!"model service {name}@{shownVersion version} not found")

end ModelServiceRegistry

end TracciaRuntime
