/-
  Traccia Runtime formalization — the agent registry (`config/registry.py`).
-/
import TracciaRuntime.Types

namespace TracciaRuntime

open Py

variable {V : Type}

/-- `s.partition(sep)` for a one-character separator, without the separator. -/
def partition (sep : Char) (s : List Char) : List Char × List Char :=
  (s.takeWhile (· ≠ sep), (s.dropWhile (· ≠ sep)).drop 1)

/-- `int(s)` for a string of decimal digits. -/
def intOfDigits (s : List Char) : Nat :=
  s.foldl (fun n c => 10 * n + (c.toNat - '0'.toNat)) 0

/-- `_version_key`. -/
def versionKey (version : String) : Nat × Nat × Nat × String :=
  let (core, suffix) := partition '-' version.toList
  let core := (partition '+' core).1
  let (major, rest) := partition '.' core
  let (minor, patch) := partition '.' rest
  (intOfDigits major, intOfDigits minor, intOfDigits (partition '.' patch).1, String.ofList suffix)

/-- Tuples compare lexicographically. -/
def versionKeyLt (a b : Nat × Nat × Nat × String) : Bool :=
  a.1 < b.1 ||
    (a.1 = b.1 && (a.2.1 < b.2.1 ||
      (a.2.1 = b.2.1 && (a.2.2.1 < b.2.2.1 ||
        (a.2.2.1 = b.2.2.1 && a.2.2.2 < b.2.2.2)))))

/-- `max(versions, key=_version_key)`: the first of the greatest ones. -/
def latest : List (AgentDefinition V) → Option (AgentDefinition V)
  | [] => none
  | d :: ds => some (ds.foldl
      (fun m e => if versionKeyLt (versionKey m.version) (versionKey e.version) then e else m) d)

/-- `InMemoryAgentRegistry.register`. -/
def registryRegister (definitions : Dict String (AgentDefinition V)) (d : AgentDefinition V) :
    Except Exn (Dict String (AgentDefinition V)) :=
  if (definitions.get d.key).isSome then .error (.conflict (.agentRegistered d.key))
  else .ok (definitions.set d.key d)

/-- `InMemoryAgentRegistry.get`. -/
def registryGet (definitions : Dict String (AgentDefinition V)) (name : String)
    (version : Option String) : Except Exn (AgentDefinition V) :=
  let found := match version with
    | some v => if v = "" then latest (definitions.values.filter (·.name = name))
      else definitions.get (name ++ "@" ++ v)
    | none => latest (definitions.values.filter (·.name = name))
  match found with
  | some d => .ok d
  | none =>
    let shown := if version.getD "" = "" then "latest" else version.getD ""
    .error (.notFound s!"agent '{name}' version '{shown}' not found")

/-! ## What a registration changes -/

/-- Without a version the latest one is meant. -/
def isLatest (version : Option String) : Bool := version.getD "" = ""

/-- Every definition is registered under its key. -/
structure Registered (definitions : Dict String (AgentDefinition V)) : Prop where
  nodup : definitions.keys.Nodup
  key : ∀ k d, (k, d) ∈ definitions → d.key = k

/-- From its registration on, requests without a version get this definition. -/
def TakesOver (definitions : Dict String (AgentDefinition V)) (d : AgentDefinition V) : Prop :=
  registryGet (definitions.set d.key d) d.name none = .ok d

section
variable {definitions definitions' : Dict String (AgentDefinition V)} {d a : AgentDefinition V}
  {name : String} {version : Option String}

theorem registryRegister_ok (h : registryRegister definitions d = .ok definitions') :
    definitions.get d.key = none ∧ definitions' = definitions.set d.key d := by
  unfold registryRegister at h
  split at h
  · cases h
  · rename_i hn
    cases h
    exact ⟨by simpa using hn, rfl⟩

theorem Registered.register (hr : Registered definitions)
    (h : registryRegister definitions d = .ok definitions') : Registered definitions' := by
  obtain ⟨-, rfl⟩ := registryRegister_ok h
  refine ⟨Dict.nodup_keys_set _ _ hr.nodup, fun k e hm => ?_⟩
  have hg := Dict.get_of_mem (Dict.nodup_keys_set _ _ hr.nodup) hm
  rw [Dict.get_set] at hg
  split at hg
  · rename_i hk; cases hg; exact hk.symm
  · exact hr.key k e (Dict.mem_of_get hg)

theorem registryGet_eq_ok : registryGet definitions name version = .ok a ↔
    (if isLatest version then latest (definitions.values.filter (·.name = name))
      else definitions.get (name ++ "@" ++ version.getD "")) = some a := by
  have found : ∀ (x : Option (AgentDefinition V)) (e : Exn), (match x with
      | some d => Except.ok d
      | none => .error e) = .ok a ↔ x = some a := by
    intro x e
    cases x <;> simp
  unfold registryGet isLatest
  cases version with
  | none => exact found _ _
  | some v =>
    by_cases hv : v = ""
    · subst hv; exact found _ _
    · have hl : ¬ decide ((some v).getD "" = "") = true := by simpa using hv
      rw [if_neg hl]
      simp only [if_neg hv]
      exact found _ _

theorem latest_mem {l : List (AgentDefinition V)} (h : latest l = some a) : a ∈ l := by
  cases l with
  | nil => cases h
  | cons d ds =>
    simp only [latest, Option.some.injEq] at h
    subst h
    induction ds generalizing d with
    | nil => exact List.mem_cons_self
    | cons e ds ih =>
      simp only [List.foldl_cons]
      split
      · exact List.mem_cons_of_mem _ (ih e)
      · rcases List.mem_cons.1 (ih d) with h | h
        · rw [h]; exact List.mem_cons_self
        · exact List.mem_cons_of_mem _ (List.mem_cons_of_mem _ h)

/-- The latest version, with one more. -/
theorem latest_append {l : List (AgentDefinition V)} (h : latest l = some a) :
    latest (l ++ [d]) = some d ∨ latest (l ++ [d]) = some a := by
  cases l with
  | nil => cases h
  | cons e ds =>
    simp only [latest, Option.some.injEq] at h
    simp only [latest, List.cons_append, List.foldl_append, List.foldl_cons, List.foldl_nil, h]
    split
    · exact Or.inl rfl
    · exact Or.inr rfl

/-- What was found is registered under its key. -/
theorem registryGet_key (hr : Registered definitions)
    (h : registryGet definitions name version = .ok a) : definitions.get a.key = some a := by
  have hm : ∃ k, (k, a) ∈ definitions := by
    rw [registryGet_eq_ok] at h
    split at h
    · have hv := (List.mem_filter.1 (latest_mem h)).1
      simpa [Dict.values] using hv
    · exact ⟨_, Dict.mem_of_get h⟩
  obtain ⟨k, hm⟩ := hm
  rw [hr.key k a hm]
  exact Dict.get_of_mem hr.nodup hm

/-- **A registration changes what requests without a version get, if it takes over**, and nothing
    else that was found before. -/
theorem registryGet_register (h : registryRegister definitions d = .ok definitions')
    (hd : TakesOver definitions d → ¬ (name = d.name ∧ isLatest version = true))
    (hg : registryGet definitions name version = .ok a) :
    registryGet definitions' name version = .ok a := by
  obtain ⟨hnone, rfl⟩ := registryRegister_ok h
  rw [registryGet_eq_ok] at hg ⊢
  split at hg
  · rename_i hv
    rw [if_pos hv]
    have hvalues : (definitions.set d.key d).values = definitions.values ++ [d] := by
      rw [Dict.set_of_get_none hnone]; simp [Dict.values]
    rw [hvalues, List.filter_append]
    by_cases hn : d.name = name
    · have hsingle : [d].filter (fun e => decide (e.name = name)) = [d] := by simp [hn]
      rw [hsingle]
      refine (latest_append hg).resolve_left fun hover => hd ?_ ⟨hn.symm, hv⟩
      refine registryGet_eq_ok.2 ?_
      rw [if_pos (by rfl), hvalues, List.filter_append, hn, hsingle]
      exact hover
    · have hnil : [d].filter (fun e => decide (e.name = name)) = [] := by simp [hn]
      rw [hnil, List.append_nil]
      exact hg
  · rename_i hv
    rw [if_neg hv, Dict.get_set_ne]
    · exact hg
    · intro hk
      rw [hk, hnone] at hg
      cases hg

end

end TracciaRuntime
