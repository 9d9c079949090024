/-
  Python objects and their JSON.

  * `Object`: the objects that code hands around; `Same`: equal, whatever the order of keys;
  * `Object.dumps`: the document that `json.dumps` writes with `sort_keys=True, default=str`, if it
    does not raise; `Object.loads`: the object that `json.loads` makes of a document;
  * `same_loads_iff`: an object comes back as itself exactly if it is `plain`.

  A document is the tree of its values.  Keys that are numbers are put in the order of their texts
  here, which nothing depends on.
-/
import TracciaRuntime.Py.Json
import Mathlib.Data.List.Sort
import Mathlib.Data.Prod.Lex
import Mathlib.Data.String.Basic

namespace Py

/-- The key of a dictionary. -/
inductive Key where
  | str (s : String)
  /-- a truth value or a number, with the text that JSON writes for it -/
  | number (text : String)
  | none
  /-- a key that JSON does not write -/
  | other (text : String)
  deriving DecidableEq

namespace Key

/-- An order of keys; texts are in their own. -/
def place : Key → Nat ×ₗ String
  | str s => toLex (0, s)
  | number s => toLex (1, s)
  | none => toLex (2, "")
  | other s => toLex (3, s)

theorem place_str {s t : String} : (str s).place ≤ (str t).place ↔ s ≤ t := by
  simp [place, Prod.Lex.toLex_le_toLex]

/-- The key in a document. -/
def text? : Key → Option String
  | str s | number s => some s
  | none => some "null"
  | other _ => Option.none

def isStr : Key → Bool
  | str _ => true
  | _ => false

def isNumber : Key → Bool
  | number _ => true
  | _ => false

/-- `sorted(keys)` does not raise. -/
def sortable (keys : List Key) : Bool :=
  keys.length ≤ 1 || keys.all isStr || keys.all isNumber

end Key

inductive Object where
  | null
  | bool (b : Bool)
  | int (n : Int)
  | float (x : ℚ)
  | nan
  | infinity (negative : Bool)
  | str (s : String)
  | list (l : List Object)
  | tuple (l : List Object)
  | dict (d : List (Key × Object))
  /-- an object of any other class, with its `str` -/
  | other (text : String)

namespace Object

/-! ## Documents -/

mutual

/-- `json.dumps(x, sort_keys=True, default=str)`; `none` is a `TypeError`. -/
def dumps : Object → Option Value
  | null => some .null
  | bool b => some (.bool b)
  | int n => some (.int n)
  | float x => some (.float x)
  | nan => some .nan
  | infinity negative => some (.infinity negative)
  | str s => some (.str s)
  | list l | tuple l => (dumpsAll l).map .list
  | dict d =>
    if Key.sortable (d.map Prod.fst) then
      (dumpsItems d).map fun items => .dict (items.insertionSort fun a b => a.1 ≤ b.1)
    else none
  | other text => some (.str text)

def dumpsAll : List Object → Option (List Value)
  | [] => some []
  | x :: rest => do
    let v ← dumps x
    let vs ← dumpsAll rest
    some (v :: vs)

def dumpsItems : List (Key × Object) → Option (List (String × Value))
  | [] => some []
  | (key, x) :: rest => do
    let text ← key.text?
    let v ← dumps x
    let items ← dumpsItems rest
    some ((text, v) :: items)

end

mutual

/-- `json.loads`. -/
def loads : Value → Object
  | .null => null
  | .bool b => bool b
  | .int n => int n
  | .float x => float x
  | .nan => nan
  | .infinity negative => infinity negative
  | .str s => str s
  | .list l => list (loadsAll l)
  | .dict d => dict (loadsItems d)

def loadsAll : List Value → List Object
  | [] => []
  | v :: rest => loads v :: loadsAll rest

def loadsItems : List (String × Value) → List (Key × Object)
  | [] => []
  | (key, v) :: rest => (.str key, loads v) :: loadsItems rest

end

/-! ## Equality -/

/-- Dictionaries in the order of their keys. -/
def sortItems (d : List (Key × Object)) : List (Key × Object) :=
  d.insertionSort fun a b => a.1.place ≤ b.1.place

mutual

/-- The object with the keys of all dictionaries in order. -/
def norm : Object → Object
  | list l => list (normAll l)
  | tuple l => tuple (normAll l)
  | dict d => dict (sortItems (normItems d))
  | x => x

def normAll : List Object → List Object
  | [] => []
  | x :: rest => norm x :: normAll rest

def normItems : List (Key × Object) → List (Key × Object)
  | [] => []
  | (key, x) :: rest => (key, norm x) :: normItems rest

end

/-- The objects are equal; dictionaries are, whatever the order of their keys. -/
def Same (x y : Object) : Prop := norm x = norm y

mutual

/-- The object consists of what JSON has: no tuples, no objects of other classes, and only texts
    as keys. -/
def plain : Object → Bool
  | list l => plainAll l
  | dict d => plainItems d
  | tuple _ | other _ => false
  | _ => true

def plainAll : List Object → Bool
  | [] => true
  | x :: rest => plain x && plainAll rest

def plainItems : List (Key × Object) → Bool
  | [] => true
  | (key, x) :: rest => key.isStr && plain x && plainItems rest

end

/-! ## Round trips -/

section
variable {x : Object} {l : List Object} {d : List (Key × Object)} {v : Value}

theorem normItems_eq : normItems d = d.map fun i => (i.1, norm i.2) := by
  induction d with
  | nil => rfl
  | cons i d ih => rw [normItems, ih, List.map_cons]

theorem loadsItems_eq {items : List (String × Value)} :
    loadsItems items = items.map fun i => (.str i.1, loads i.2) := by
  induction items with
  | nil => rfl
  | cons i items ih => rw [loadsItems, ih, List.map_cons]

theorem plainItems_iff : plainItems d = true ↔ ∀ i ∈ d, i.1.isStr = true ∧ plain i.2 = true := by
  induction d with
  | nil => simp [plainItems]
  | cons i d ih => rw [plainItems, List.forall_mem_cons, Bool.and_eq_true, Bool.and_eq_true, ih]

theorem sortItems_perm : (sortItems d).Perm d := List.perm_insertionSort ..

theorem plainItems_sortItems : plainItems (sortItems d) = plainItems d := by
  rw [Bool.eq_iff_iff, plainItems_iff, plainItems_iff]
  exact forall_congr' fun _ => imp_congr_left sortItems_perm.mem_iff

/-- Sorting goes by the keys only. -/
theorem sortItems_map {α : Type} {items : List α} {f : α → Key × Object} {r : α → α → Prop}
    [DecidableRel r] (h : ∀ a b, r a b ↔ (f a).1.place ≤ (f b).1.place) :
    (items.insertionSort r).map f = sortItems (items.map f) :=
  List.map_insertionSort r _ f items fun a _ b _ => h a b

theorem sortItems_sortItems : sortItems (sortItems d) = sortItems d := by
  have h : (sortItems d).Pairwise fun a b => a.1.place ≤ b.1.place :=
    @List.pairwise_insertionSort _ (fun a b => a.1.place ≤ b.1.place) _
      ⟨fun a b => le_total a.1.place b.1.place⟩ ⟨fun _ _ _ h h' => le_trans h h'⟩ d
  exact h.insertionSort_eq

theorem normItems_sortItems : normItems (sortItems d) = sortItems (normItems d) := by
  rw [normItems_eq, normItems_eq]
  exact sortItems_map fun _ _ => Iff.rfl

end

mutual

theorem norm_norm : ∀ x : Object, norm (norm x) = norm x
  | .list l => by rw [norm, norm, normAll_normAll l]
  | .tuple l => by rw [norm, norm, normAll_normAll l]
  | .dict d => by
    rw [norm, norm, normItems_sortItems, normItems_normItems d, sortItems_sortItems]
  | .null | .bool _ | .int _ | .float _ | .nan | .infinity _ | .str _ | .other _ => rfl

theorem normAll_normAll : ∀ l : List Object, normAll (normAll l) = normAll l
  | [] => rfl
  | x :: rest => by rw [normAll, normAll, norm_norm x, normAll_normAll rest]

theorem normItems_normItems : ∀ d : List (Key × Object), normItems (normItems d) = normItems d
  | [] => rfl
  | (key, x) :: rest => by rw [normItems, normItems, norm_norm x, normItems_normItems rest]

end

mutual

theorem plain_norm : ∀ x : Object, plain (norm x) = plain x
  | .list l => by rw [norm, plain, plain, plainAll_normAll l]
  | .dict d => by rw [norm, plain, plain, plainItems_sortItems, plainItems_normItems d]
  | .tuple _ | .null | .bool _ | .int _ | .float _ | .nan | .infinity _ | .str _ | .other _ => rfl

theorem plainAll_normAll : ∀ l : List Object, plainAll (normAll l) = plainAll l
  | [] => rfl
  | x :: rest => by rw [normAll, plainAll, plainAll, plain_norm x, plainAll_normAll rest]

theorem plainItems_normItems : ∀ d : List (Key × Object), plainItems (normItems d) = plainItems d
  | [] => rfl
  | (key, x) :: rest => by
    rw [normItems, plainItems, plainItems, plain_norm x, plainItems_normItems rest]

end

mutual

/-- What `json.loads` returns is plain. -/
theorem plain_loads : ∀ v : Value, plain (loads v) = true
  | .list l => by rw [loads, plain, plainAll_loadsAll l]
  | .dict d => by rw [loads, plain, plainItems_loadsItems d]
  | .null | .bool _ | .int _ | .float _ | .nan | .infinity _ | .str _ => rfl

theorem plainAll_loadsAll : ∀ l : List Value, plainAll (loadsAll l) = true
  | [] => rfl
  | v :: rest => by rw [loadsAll, plainAll, plain_loads v, plainAll_loadsAll rest]; rfl

theorem plainItems_loadsItems : ∀ d : List (String × Value), plainItems (loadsItems d) = true
  | [] => rfl
  | (key, v) :: rest => by
    rw [loadsItems, plainItems, plain_loads v, plainItems_loadsItems rest]
    rfl

end

mutual

/-- A plain object comes back with the keys of its dictionaries in order. -/
theorem dumps_of_plain : ∀ x : Object, plain x = true → ∃ v, dumps x = some v ∧ loads v = norm x
  | .list l, h => by
    obtain ⟨vs, hd, hl⟩ := dumpsAll_of_plain l h
    exact ⟨.list vs, by rw [dumps, hd]; rfl, by rw [loads, hl, norm]⟩
  | .dict d, h => by
    obtain ⟨items, hd, hl⟩ := dumpsItems_of_plain d h
    have hsortable : Key.sortable (d.map Prod.fst) = true := by
      have : (d.map Prod.fst).all Key.isStr = true := by
        rw [List.all_map, List.all_eq_true]
        exact fun i hi => (plainItems_iff.1 h i hi).1
      rw [Key.sortable, this, Bool.or_true, Bool.true_or]
    refine ⟨_, by rw [dumps, if_pos hsortable, hd]; rfl, ?_⟩
    rw [loads, norm, ← hl, loadsItems_eq, loadsItems_eq]
    exact congrArg dict (sortItems_map fun _ _ => Key.place_str.symm)
  | .tuple _, h => nomatch h
  | .other _, h => nomatch h
  | .null, _ => ⟨_, rfl, rfl⟩
  | .bool _, _ => ⟨_, rfl, rfl⟩
  | .int _, _ => ⟨_, rfl, rfl⟩
  | .float _, _ => ⟨_, rfl, rfl⟩
  | .nan, _ => ⟨_, rfl, rfl⟩
  | .infinity _, _ => ⟨_, rfl, rfl⟩
  | .str _, _ => ⟨_, rfl, rfl⟩

theorem dumpsAll_of_plain : ∀ l : List Object, plainAll l = true →
    ∃ vs, dumpsAll l = some vs ∧ loadsAll vs = normAll l
  | [], _ => ⟨[], rfl, rfl⟩
  | x :: rest, h => by
    rw [plainAll, Bool.and_eq_true] at h
    obtain ⟨v, hv, hl⟩ := dumps_of_plain x h.1
    obtain ⟨vs, hvs, hls⟩ := dumpsAll_of_plain rest h.2
    exact ⟨v :: vs, by rw [dumpsAll, hv, hvs]; rfl, by rw [loadsAll, hl, hls, normAll]⟩

theorem dumpsItems_of_plain : ∀ d : List (Key × Object), plainItems d = true →
    ∃ items, dumpsItems d = some items ∧ loadsItems items = normItems d
  | [], _ => ⟨[], rfl, rfl⟩
  | (key, x) :: rest, h => by
    rw [plainItems, Bool.and_eq_true, Bool.and_eq_true] at h
    obtain ⟨v, hv, hl⟩ := dumps_of_plain x h.1.2
    obtain ⟨items, hitems, hls⟩ := dumpsItems_of_plain rest h.2
    cases key with
    | str s =>
      exact ⟨(s, v) :: items, by rw [dumpsItems, hv, hitems]; rfl,
        by rw [loadsItems, hl, hls, normItems]⟩
    | number _ => exact absurd h.1.1 Bool.false_ne_true
    | none => exact absurd h.1.1 Bool.false_ne_true
    | other _ => exact absurd h.1.1 Bool.false_ne_true

end

/-- **An object comes back as itself**, exactly if it is plain. -/
theorem same_loads_iff {x : Object} {v : Value} (h : dumps x = some v) :
    Same (loads v) x ↔ plain x = true := by
  constructor
  · intro hsame
    rw [← plain_norm, ← show norm (loads v) = norm x from hsame, plain_norm]
    exact plain_loads v
  · intro hplain
    obtain ⟨v', hv', hl⟩ := dumps_of_plain x hplain
    rw [h] at hv'
    cases hv'
    rw [Same, hl, norm_norm]

end Object

end Py
