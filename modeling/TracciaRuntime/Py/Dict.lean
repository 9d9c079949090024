/-
  Insertion-ordered dictionaries and a few string functions.

  A `Dict` lists its items in the order in which their keys were first set;
  setting a key again keeps its place.
-/
import Mathlib.Data.List.Basic

namespace Py

variable {K V : Type}

/-- A dictionary in insertion order. -/
abbrev Dict (K V : Type) := List (K × V)

namespace Dict
variable [DecidableEq K]

def get : Dict K V → K → Option V
  | [], _ => none
  | (k', v) :: d, k => if k' = k then some v else get d k

def set : Dict K V → K → V → Dict K V
  | [], k, v => [(k, v)]
  | (k', v') :: d, k, v => if k' = k then (k', v) :: d else (k', v') :: set d k v

def erase (d : Dict K V) (k : K) : Dict K V := d.filter fun i => i.1 ≠ k

def keys (d : Dict K V) : List K := d.map (·.1)

def values (d : Dict K V) : List V := d.map (·.2)

theorem mem_of_get {d : Dict K V} {k : K} {v : V} (h : d.get k = some v) : (k, v) ∈ d := by
  induction d with
  | nil => cases h
  | cons i d ih =>
    obtain ⟨k', v'⟩ := i
    by_cases hk : k' = k
    · subst hk
      simp only [get, if_true, Option.some.injEq] at h
      rw [h]; exact List.mem_cons_self
    · simp only [get, hk, if_false] at h
      exact List.mem_cons_of_mem _ (ih h)

theorem get_set (d : Dict K V) (k k' : K) (v : V) :
    (d.set k v).get k' = if k' = k then some v else d.get k' := by
  induction d with
  | nil => simp only [set, get, eq_comm]
  | cons i d ih =>
    obtain ⟨k₀, v₀⟩ := i
    by_cases h : k₀ = k
    · subst h
      by_cases hk : k₀ = k'
      · simp [set, get, hk]
      · simp [set, get, hk, Ne.symm hk]
    · by_cases hk : k₀ = k'
      · subst hk; simp [set, get, h]
      · simp [set, get, h, hk, ih]

@[simp] theorem get_set_self (d : Dict K V) (k : K) (v : V) : (d.set k v).get k = some v := by
  rw [get_set, if_pos rfl]

theorem get_set_ne {d : Dict K V} {k k' : K} {v : V} (h : k' ≠ k) :
    (d.set k v).get k' = d.get k' := by
  rw [get_set, if_neg h]

/-- A new key is the last one. -/
theorem set_of_get_none {d : Dict K V} {k : K} (h : d.get k = none) (v : V) :
    d.set k v = d ++ [(k, v)] := by
  induction d with
  | nil => rfl
  | cons i d ih =>
    obtain ⟨k₀, v₀⟩ := i
    by_cases hk : k₀ = k
    · simp [get, hk] at h
    · simp only [get, hk, if_false] at h
      simp [set, hk, ih h]

theorem get_eq_none_iff {d : Dict K V} {k : K} : d.get k = none ↔ k ∉ d.keys := by
  induction d with
  | nil => simp [get, keys]
  | cons i d ih =>
    obtain ⟨k₀, v₀⟩ := i
    by_cases hk : k₀ = k
    · simp [get, keys, hk]
    · simp only [get, hk, if_false, ih, keys, List.map_cons, List.mem_cons, Ne.symm hk, false_or]

theorem length_le_length_set (d : Dict K V) (k : K) (v : V) : d.length ≤ (d.set k v).length := by
  induction d with
  | nil => exact Nat.zero_le _
  | cons i d ih =>
    obtain ⟨k₀, v₀⟩ := i
    simp only [set]
    split <;> simp [ih]

theorem get_erase (d : Dict K V) (k k' : K) :
    (d.erase k).get k' = if k' = k then none else d.get k' := by
  induction d with
  | nil => simp [erase, get]
  | cons i d ih =>
    obtain ⟨k₀, v₀⟩ := i
    by_cases h : k₀ = k
    · have hdrop : erase ((k₀, v₀) :: d) k = erase d k := by simp [erase, h]
      rw [hdrop, ih]
      split
      · rfl
      · rw [get, if_neg fun hk => by simp_all]
    · have hkeep : erase ((k₀, v₀) :: d) k = (k₀, v₀) :: erase d k := by simp [erase, h]
      rw [hkeep, get, get, ih]
      by_cases hk : k₀ = k'
      · subst hk; simp [h]
      · simp [hk]

theorem mem_keys_set {d : Dict K V} {k k' : K} {v : V} :
    k' ∈ (d.set k v).keys ↔ k' = k ∨ k' ∈ d.keys := by
  induction d with
  | nil => simp [set, keys]
  | cons i d ih =>
    obtain ⟨k₀, v₀⟩ := i
    simp only [keys] at ih ⊢
    by_cases h : k₀ = k
    · simp [set, h]
    · simp only [set, h, if_false, List.map_cons, List.mem_cons, ih]; tauto

theorem mem_values_set {d : Dict K V} {k : K} {v v' : V} (h : v' ∈ (d.set k v).values) :
    v' = v ∨ v' ∈ d.values := by
  induction d with
  | nil => simpa [set, values] using h
  | cons i d ih =>
    obtain ⟨k₀, v₀⟩ := i
    simp only [values] at ih h ⊢
    by_cases hk : k₀ = k
    · simp only [set, hk, if_true, List.map_cons, List.mem_cons] at h
      exact h.imp_right (List.mem_cons_of_mem _)
    · simp only [set, hk, if_false, List.map_cons, List.mem_cons] at h
      rcases h with rfl | h
      · exact .inr List.mem_cons_self
      · exact (ih h).imp_right (List.mem_cons_of_mem _)

theorem nodup_keys_set {d : Dict K V} (k : K) (v : V) (h : d.keys.Nodup) :
    (d.set k v).keys.Nodup := by
  induction d with
  | nil => simp [set, keys]
  | cons i d ih =>
    obtain ⟨k₀, v₀⟩ := i
    obtain ⟨h₁, h₂⟩ := List.nodup_cons.1 (show (k₀ :: keys d).Nodup from h)
    by_cases hk : k₀ = k
    · simp only [set, hk, if_true]; subst hk; exact h
    · simp only [set, hk, if_false]
      refine List.nodup_cons.2 ⟨fun hm => ?_, ih h₂⟩
      rcases mem_keys_set.1 hm with h' | h'
      · exact hk h'
      · exact h₁ h'

theorem get_of_mem {d : Dict K V} {k : K} {v : V} (hn : d.keys.Nodup) (h : (k, v) ∈ d) :
    d.get k = some v := by
  induction d with
  | nil => cases h
  | cons i d ih =>
    obtain ⟨k₀, v₀⟩ := i
    obtain ⟨h₁, h₂⟩ := List.nodup_cons.1 (show (k₀ :: keys d).Nodup from hn)
    rcases List.mem_cons.1 h with h | h
    · cases h; simp [get]
    · have hne : k₀ ≠ k := by
        rintro rfl; exact h₁ (List.mem_map_of_mem (f := (·.1)) h)
      simp only [get, hne, if_false]
      exact ih h₂ h

/-- `{**d, **new}`. -/
def update (d new : Dict K V) : Dict K V := new.foldl (fun d i => d.set i.1 i.2) d

theorem nodup_keys_update {d : Dict K V} (new : Dict K V) (h : d.keys.Nodup) :
    (d.update new).keys.Nodup := by
  induction new generalizing d with
  | nil => exact h
  | cons i new ih => exact ih (nodup_keys_set i.1 i.2 h)

theorem get_update {new : Dict K V} (h : new.keys.Nodup) (d : Dict K V) (k : K) :
    (d.update new).get k = (new.get k).or (d.get k) := by
  induction new generalizing d with
  | nil => rfl
  | cons i new ih =>
    obtain ⟨k₀, v₀⟩ := i
    obtain ⟨hk₀, hn⟩ := List.nodup_cons.1 (show (k₀ :: keys new).Nodup from h)
    rw [show d.update ((k₀, v₀) :: new) = (d.set k₀ v₀).update new from rfl, ih hn, get_set]
    by_cases hk : k₀ = k
    · subst hk
      rw [get_eq_none_iff.2 hk₀]
      simp [get]
    · simp [get, hk, Ne.symm hk]

end Dict

/-! ## Strings -/

/-- `s.removeprefix(p)`. -/
def removePrefix (p s : String) : String :=
  if p.toList.isPrefixOf s.toList then String.ofList (s.toList.drop p.toList.length) else s

theorem removePrefix_append (p s : String) : removePrefix p (p ++ s) = s := by
  have h : p.toList.isPrefixOf (p ++ s).toList = true := by
    rw [String.toList_append, List.isPrefixOf_iff_prefix]
    exact List.prefix_append _ _
  rw [removePrefix, if_pos h, String.toList_append, List.drop_left, String.ofList_toList]

/-- `p in s`. -/
def contains (p s : String) : Bool := s.toList.tails.any fun l => p.toList.isPrefixOf l

/-- The characters that `str.strip` removes. -/
def isSpace (c : Char) : Bool :=
  let n := c.toNat
  (9 ≤ n && n ≤ 13) || (28 ≤ n && n ≤ 32) || n = 0x85 || n = 0xA0 || n = 0x1680 ||
    (0x2000 ≤ n && n ≤ 0x200A) || n = 0x2028 || n = 0x2029 || n = 0x202F || n = 0x205F || n = 0x3000

/-- `s.strip()`. -/
@[irreducible] def strip (s : String) : String :=
  String.ofList ((s.toList.dropWhile isSpace).reverse.dropWhile isSpace).reverse

/-- `c.lower()` for the characters whose lower case can be ASCII letters: the ASCII ones and
    the Kelvin sign. -/
def lowerChar (c : Char) : Char := if c = '\u212A' then 'k' else c.toLower

/-- `s.lower()`, as far as a comparison with an ASCII word can tell. -/
def lower (s : String) : String := String.ofList (s.toList.map lowerChar)

end Py
