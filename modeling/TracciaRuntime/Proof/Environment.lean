/-
  Traccia Runtime formalization — the order in which the environment is enumerated.

  `load_settings` stores the variables one by one, so a later one is stored over an earlier
  one.  When no two of them say different things of one setting, the order makes no
  difference (`loadSettings_perm`); otherwise the last one counts, or the earlier one is no
  mapping and `_environment` raises (`environment_order_iff`).
-/
import Mathlib.Data.List.Perm.Basic
import TracciaRuntime.Config.Settings

namespace TracciaRuntime.Settings

open Py

variable {K L : Type} [DecidableEq K] (lib : Lib K L)

/-- `model_validate` looks up what the mappings hold, in whatever order they hold it. -/
def Respects {S : Type} (validate : Dict K (Tree K L) → Except String S) : Prop :=
  ∀ d e, (Tree.dict d).Same (Tree.dict e) → validate d = validate e

/-- In every order of the variables the same settings are read, or a `ConfigurationError` is
    raised. -/
structure OrderFree {S : Type} (load : List (String × String) → Except (LoadError L) S)
    (environ : List (String × String)) : Prop where
  same : ∀ order order' s s', order.Perm environ → order'.Perm environ →
    load order = .ok s → load order' = .ok s' → s = s'
  raises : ∀ order e, order.Perm environ → load order = .error e → ∃ text, e = .configuration text

/-- Where the name of one variable is the name of another, up to case, or goes on after it, the
    value of the other one is a mapping that has the value of the first one in its place. -/
def Consistent (environ : List (String × String)) : Prop :=
  Assignment.Agree (environ.filterMap (setting lib))

/-! ## Consistent variables -/

theorem Consistent.perm {environ order : List (String × String)} (h : Consistent lib environ)
    (hp : order.Perm environ) : Consistent lib order := by
  have hmem : ∀ a, a ∈ order.filterMap (setting lib) → a ∈ environ.filterMap (setting lib) :=
    fun a => (hp.filterMap _).mem_iff.1
  exact fun a ha b hb => h a (hmem a ha) b (hmem b hb)

/-- Consistent variables are read in every order, as equal mappings. -/
theorem Consistent.environment {environ order : List (String × String)} (h : Consistent lib environ)
    (hp : order.Perm environ) :
    ∃ d e, environment lib order = .ok d ∧ environment lib environ = .ok e ∧
      (Tree.dict d).Same (Tree.dict e) := by
  obtain ⟨d, hd, rd⟩ := Assignment.storeAll_reads (h.perm lib hp)
  obtain ⟨e, he, re⟩ := Assignment.storeAll_reads h
  rw [← environment_eq] at hd he
  exact ⟨d, e, hd, he, rd.same re fun a => (hp.filterMap _).mem_iff⟩

theorem readFiles_error {files : List (String × Except String (Loaded K L))}
    {data : Dict K (Tree K L)} {e : LoadError L} (h : readFiles lib data files = .error e) :
    ∃ text, e = .configuration text := by
  induction files generalizing data with
  | nil => cases h
  | cons file files ih =>
    obtain ⟨name, exc | loaded⟩ := file
    · cases h
      exact ⟨_, rfl⟩
    · simp only [readFiles] at h
      split at h
      · exact ih h
      · cases h
        exact ⟨_, rfl⟩

variable {S : Type} {validate : Dict K (Tree K L) → Except String S}
  {files : List (String × Except String (Loaded K L))} {overrides : Option (Mapping K L)}

/-- They give the same settings, or the same error, in every order. -/
theorem loadSettings_perm (hv : Respects validate) {environ order : List (String × String)}
    (h : Consistent lib environ) (hp : order.Perm environ) :
    loadSettings lib validate files overrides order =
      loadSettings lib validate files overrides environ := by
  obtain ⟨d, e, hd, he, hde⟩ := h.environment lib hp
  simp only [loadSettings, hd, he]
  cases readFiles lib [] files with
  | error exc => rfl
  | ok data =>
    have okd := environment_ok lib hd
    have oke := environment_ok lib he
    have oko : (Tree.dict (overrides.elim [] fun o => o.1)).Ok := by
      cases overrides with
      | none => exact .ofDict _ List.nodup_nil (by simp [Dict.values])
      | some o => exact o.2
    have hmerge := Tree.merge_congr (Tree.merge_congr (b := data) (fun _ => rfl) hde okd oke)
      (fun _ => rfl) oko oko
    exact congrArg (Except.mapError invalid) (hv _ _ hmerge)

/-- An error is a `ConfigurationError`. -/
theorem loadSettings_error {environ : List (String × String)} (h : Consistent lib environ)
    {e : LoadError L} (he : loadSettings lib validate files overrides environ = .error e) :
    ∃ text, e = .configuration text := by
  obtain ⟨d, -, hd, -, -⟩ := h.environment lib (List.Perm.refl environ)
  simp only [loadSettings, hd] at he
  cases hr : readFiles lib [] files with
  | error exc =>
    simp only [hr, bind, Except.bind, Except.error.injEq] at he
    exact he ▸ readFiles_error lib hr
  | ok data =>
    simp only [hr, bind, Except.bind, Except.mapError] at he
    split at he
    · cases he
      exact ⟨_, rfl⟩
    · cases he

/-! ## Variables that are not -/

/-- The settings that show everything they are read from. -/
def reading (d : Dict K (Tree K L)) : Except String (List K → Option (Shape L)) :=
  .ok fun path => (Tree.dict d).at? path

theorem reading_respects : Respects (reading : Dict K (Tree K L) → _) :=
  fun _ _ h => congrArg Except.ok (funext h)

/-- Without files and overrides, the settings are those of the variables. -/
theorem loadSettings_reading (environ : List (String × String)) :
    loadSettings lib reading [] none environ = match environment lib environ with
      | .error e => .error (.store e)
      | .ok d => .ok fun path => (Tree.dict d).at? path := by
  simp only [loadSettings, readFiles, Option.elim, Tree.merge_nil]
  cases hd : environment lib environ with
  | error e => rfl
  | ok d => exact congrArg Except.ok (funext (Tree.nil_merge (environment_ok lib hd)))

theorem exists_perm_pair {l : List (String × String)} {i j : String × String} (hi : i ∈ l)
    (hj : j ∈ l) (hne : i ≠ j) : ∃ rest, (rest ++ [i] ++ [j]).Perm l := by
  refine ⟨(l.erase j).erase i, ?_⟩
  have hi' : i ∈ l.erase j := (List.mem_erase_of_ne hne).2 hi
  calc ((l.erase j).erase i ++ [i] ++ [j]).Perm (j :: i :: (l.erase j).erase i) :=
        (List.perm_append_singleton j _).trans ((List.perm_append_singleton i _).cons j)
    _ |>.Perm (j :: l.erase j) := ((List.perm_cons_erase hi').symm).cons j
    _ |>.Perm l := (List.perm_cons_erase hj).symm

/-- If the order makes no difference, the variables are consistent: of two of them the one that
    is enumerated last says what stands at its path. -/
theorem consistent_of_orderFree {environ : List (String × String)}
    (h : OrderFree (loadSettings lib reading [] none) environ) : Consistent lib environ := by
  have reads : ∀ order, order.Perm environ → ∃ d, environment lib order = .ok d ∧
      loadSettings lib reading [] none order = .ok fun path => (Tree.dict d).at? path := by
    intro order hp
    have hload := loadSettings_reading lib order
    cases hd : environment lib order with
    | error e =>
      rw [hd] at hload
      obtain ⟨text, he⟩ := h.raises order _ hp hload
      cases he
    | ok d => exact ⟨d, rfl, by rw [hload, hd]⟩
  have last : ∀ {rest : List (String × String)} {i : String × String} {a : Assignment K L}
      {d : Dict K (Tree K L)}, setting lib i = some a → environment lib (rest ++ [i]) = .ok d →
      ∀ r, (Tree.dict d).at? (a.path ++ r) = a.value.at? r := by
    intro rest i a d ha hd
    rw [environment_eq, List.filterMap_append, List.filterMap_cons_some ha] at hd
    exact Assignment.at?_storeAll_last hd
  intro a ha b hb r hpath s
  obtain ⟨i, hi, hia⟩ := List.mem_filterMap.1 ha
  obtain ⟨j, hj, hjb⟩ := List.mem_filterMap.1 hb
  by_cases hij : i = j
  · subst hij
    obtain rfl : a = b := Option.some.inj (hia.symm.trans hjb)
    obtain rfl : r = [] := by simpa using hpath
    rfl
  obtain ⟨rest, hp⟩ := exists_perm_pair hj hi (Ne.symm hij)
  obtain ⟨rest', hp'⟩ := exists_perm_pair hi hj hij
  obtain ⟨d, hd, hload⟩ := reads _ hp
  obtain ⟨e, he, hload'⟩ := reads _ hp'
  have hsame := congrFun (h.same _ _ _ _ hp hp' hload hload') (b.path ++ s)
  calc a.value.at? (r ++ s) = (Tree.dict d).at? (a.path ++ (r ++ s)) := (last hia hd _).symm
    _ = (Tree.dict d).at? (b.path ++ s) := by rw [hpath, List.append_assoc]
    _ = (Tree.dict e).at? (b.path ++ s) := hsame
    _ = b.value.at? s := last hjb he _

/-- A library for texts that are no JSON. -/
def plainText : Lib String String where
  lower := lower
  key := id
  str := id
  truthy := (· ≠ "")
  loads _ := none

/-- `storage` set to a text, and a setting in it. -/
def storageVariables : List (String × String) :=
  [("TRACCIA_RUNTIME__STORAGE", "memory"), ("TRACCIA_RUNTIME__STORAGE__PATH", "runs.db")]

/-- `AppSettings` takes no text for `storage`. -/
def storageInvalid (_ : Dict String (Tree String String)) : Except String Unit :=
  .error "Input should be a valid dictionary or instance of StorageSettings"

theorem setting_storage :
    setting plainText ("TRACCIA_RUNTIME__STORAGE", "memory") =
      some ⟨"storage", [], .leaf "memory"⟩ := rfl

theorem setting_storage_path :
    setting plainText ("TRACCIA_RUNTIME__STORAGE__PATH", "runs.db") =
      some ⟨"storage", ["path"], .leaf "runs.db"⟩ := rfl

end TracciaRuntime.Settings
