/-
  Traccia Runtime formalization — `load_settings` (`config/settings.py`): the configuration
  files, the environment variables and the deployment overrides, merged in this order and
  validated.

  YAML, JSON and the model of the settings are parameters: a file is what reading and parsing
  it gave, and `validate` is `AppSettings.model_validate`.
-/
import TracciaRuntime.Py.Assignments

namespace TracciaRuntime.Settings

open Py

/-- What a loader returns: a dictionary in it holds each key once. -/
abbrev Loaded (K L : Type) := {t : Tree K L // t.Ok}

/-- A dictionary that holds each key once. -/
abbrev Mapping (K L : Type) := {d : Dict K (Tree K L) // (Tree.dict d).Ok}

/-- What is not modelled here: `K` are the keys of dictionaries, `L` the objects that are no
    dictionaries. -/
structure Lib (K L : Type) where
  /-- `s.lower()` -/
  lower : String → String
  /-- a string as a key -/
  key : String → K
  /-- a string as a value -/
  str : String → L
  /-- `bool(x)` -/
  truthy : L → Bool
  /-- `json.loads(s)`; `none` stands for a `json.JSONDecodeError` -/
  loads : String → Option (Loaded K L)

/-- A `ConfigurationError`, or an error that `load_settings` lets through. -/
inductive LoadError (L : Type) where
  | configuration (text : String)
  | store (e : StoreError L)

/-- The other errors, wrapped: `OSError`, `yaml.YAMLError` and `ValueError`, with `str(exc)`. -/
def invalid {L : Type} (exc : String) : LoadError L :=
  .configuration s!"invalid configuration: {exc}"

variable {K L : Type} [DecidableEq K] (lib : Lib K L)

/-- `_parse_env_value`. -/
def parseEnvValue (value : String) : Tree K L :=
  (lib.loads value).elim (.leaf (lib.str value)) (·.1)

/-- `s.split("__")`: the first part and the others. -/
def split : List Char → List Char × List (List Char)
  | '_' :: '_' :: cs => ([], (split cs).1 :: (split cs).2)
  | c :: cs => (c :: (split cs).1, (split cs).2)
  | [] => ([], [])

def envPrefix : String := "TRACCIA_RUNTIME__"

/-- What a variable with the prefix assigns. -/
def setting (item : String × String) : Option (Assignment K L) :=
  if envPrefix.toList.isPrefixOf item.1.toList then
    let parts := split (lib.lower (String.ofList (item.1.toList.drop envPrefix.length))).toList
    some ⟨lib.key (String.ofList parts.1), parts.2.map fun part => lib.key (String.ofList part),
      parseEnvValue lib item.2⟩
  else none

/-- `_environment`, for the items of `os.environ` in the order in which they are enumerated. -/
def environment (environ : List (String × String)) :
    Except (StoreError L) (Dict K (Tree K L)) :=
  environ.foldlM (fun root item => match setting lib item with
    | none => .ok root
    | some a => a.store root) []

/-- `loaded or {}`. -/
def orEmpty : Tree K L → Tree K L
  | .leaf x => if lib.truthy x then .leaf x else .dict []
  | .dict d => .dict d

/-- The loop over the files: their names, and what `yaml.safe_load` returns or `str(exc)`. -/
def readFiles (data : Dict K (Tree K L)) :
    List (String × Except String (Loaded K L)) → Except (LoadError L) (Dict K (Tree K L))
  | [] => .ok data
  | (_, .error exc) :: _ => .error (invalid exc)
  | (file, .ok loaded) :: files =>
    match orEmpty lib loaded.1 with
    | .dict d => readFiles (Tree.merge data d) files
    | .leaf _ => .error (.configuration s!"configuration root in {file} must be a mapping")

/-- `load_settings`; `validate` returns the settings or `str(exc)`. -/
def loadSettings {S : Type} (validate : Dict K (Tree K L) → Except String S)
    (files : List (String × Except String (Loaded K L))) (overrides : Option (Mapping K L))
    (environ : List (String × String)) : Except (LoadError L) S := do
  let data ← readFiles lib [] files
  let overlay ← (environment lib environ).mapError .store
  let data := Tree.merge data overlay
  let data := Tree.merge data (overrides.elim [] (·.1))
  (validate data).mapError invalid

/-! ## The variables as assignments -/

theorem environment_eq (environ : List (String × String)) :
    environment lib environ = Assignment.storeAll (environ.filterMap (setting lib)) := by
  rw [environment, Assignment.storeAll, List.foldlM_filterMap]
  congr 1
  funext root item
  cases setting lib item <;> rfl

theorem parseEnvValue_ok (value : String) : (parseEnvValue lib value).Ok := by
  rw [parseEnvValue]
  cases lib.loads value with
  | none => exact .ofLeaf _
  | some t => exact t.2

/-- A value that a variable assigns holds each key once. -/
theorem setting_ok {item : String × String} {a : Assignment K L} (h : setting lib item = some a) :
    a.value.Ok := by
  simp only [setting] at h
  split_ifs at h
  simp only [Option.some.injEq] at h
  subst h
  exact parseEnvValue_ok lib item.2

theorem environment_ok {environ : List (String × String)} {d : Dict K (Tree K L)}
    (h : environment lib environ = .ok d) : (Tree.dict d).Ok := by
  rw [environment_eq] at h
  refine Assignment.storeAll_ok (fun a ha => ?_) h
  obtain ⟨item, -, hitem⟩ := List.mem_filterMap.1 ha
  exact setting_ok lib hitem

end TracciaRuntime.Settings
