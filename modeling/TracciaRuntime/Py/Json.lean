/-
  Decoded JSON, as the Python objects that `json.loads` returns, and what the operations of
  Python do on them.

  * `Value`, with `truthy` and the names of the types;
  * `Error`: the exceptions of the operations, with their texts;
  * `subscript`, `first`, `get`, `iter`, `lookup`, `toInt`: `x[key]`, `x[0]`, `x.get(key)`,
    `for … in x`, `d.get(x)` and `int(x)`;
  * `Py.int`: `int` of a text.
-/
import Mathlib.Data.List.SplitOn
import TracciaRuntime.Py.Dict
import TracciaRuntime.Py.Result
import Mathlib.Data.Rat.Floor

namespace Py

/-- The code points of the zeros; the digits one to nine follow each of them. -/
def zeros : List Nat :=
  [0x30, 0x660, 0x6f0, 0x7c0, 0x966, 0x9e6, 0xa66, 0xae6, 0xb66, 0xbe6, 0xc66, 0xce6, 0xd66, 0xde6,
    0xe50, 0xed0, 0xf20, 0x1040, 0x1090, 0x17e0, 0x1810, 0x1946, 0x19d0, 0x1a80, 0x1a90, 0x1b50,
    0x1bb0, 0x1c40, 0x1c50, 0xa620, 0xa8d0, 0xa900, 0xa9d0, 0xa9f0, 0xaa50, 0xabf0, 0xff10,
    0x104a0, 0x10d30, 0x11066, 0x110f0, 0x11136, 0x111d0, 0x112f0, 0x11450, 0x114d0, 0x11650,
    0x116c0, 0x11730, 0x118e0, 0x11950, 0x11c50, 0x11d50, 0x11da0, 0x11f50, 0x16a60, 0x16ac0,
    0x16b50, 0x1d7ce, 0x1d7d8, 0x1d7e2, 0x1d7ec, 0x1d7f6, 0x1e140, 0x1e2f0, 0x1e4f0, 0x1e950,
    0x1fbf0]

def digit (c : Char) : Option Nat :=
  (zeros.find? fun z => z ≤ c.toNat && c.toNat < z + 10).map fun z => c.toNat - z

/-- Digits with single underscores between them; more than 4300 are too many. -/
def digits (cs : List Char) : Option Nat := do
  let groups := cs.splitOn '_'
  if groups.any (·.isEmpty) || 4300 < groups.flatten.length then none
  else
    let ds ← groups.flatten.mapM digit
    some (ds.foldl (fun n d => 10 * n + d) 0)

/-- `int(s)`; `none` where it raises `ValueError`. -/
def int (s : String) : Option Int :=
  match (strip s).toList with
  | '-' :: cs => (digits cs).map fun n => -(n : Int)
  | '+' :: cs => (digits cs).map fun n => (n : Int)
  | cs => (digits cs).map fun n => (n : Int)

inductive Value where
  | null
  | bool (b : Bool)
  | int (n : Int)
  | float (x : ℚ)
  | nan
  | infinity (negative : Bool)
  | str (s : String)
  | list (l : List Value)
  | dict (d : List (String × Value))

/-- The classes of exceptions; `json.JSONDecodeError` and `pydantic.ValidationError` are
    subclasses of `ValueError`. -/
inductive ErrorType where
  | index | key | type | value | attribute | overflow
  deriving DecidableEq

/-- An exception, with `str(exc)`. -/
structure Error where
  type : ErrorType
  text : String
  deriving DecidableEq

abbrev Result := Except Error

namespace Value

/-- `type(x).__name__`. -/
def typeName : Value → String
  | null => "NoneType"
  | bool _ => "bool"
  | int _ => "int"
  | float _ | nan | infinity _ => "float"
  | str _ => "str"
  | list _ => "list"
  | dict _ => "dict"

/-- `bool(x)`. -/
def truthy : Value → Bool
  | null => false
  | bool b => b
  | int n => n ≠ 0
  | float x => x ≠ 0
  | nan | infinity _ => true
  | str s => s ≠ ""
  | list l => !l.isEmpty
  | dict d => !d.isEmpty

/-- `x or y`. -/
def orElse (x y : Value) : Value := if x.truthy then x else y

def asDict? : Value → Option (Dict String Value)
  | dict d => some d
  | _ => none

def asStr? : Value → Option String
  | str s => some s
  | _ => none

/-- `hash(x)` does not raise. -/
def hashable : Value → Bool
  | list _ | dict _ => false
  | _ => true

def typeError {α : Type} (text : String) : Result α := .error ⟨.type, text⟩

/-- `x[key]`. -/
def subscript (x : Value) (key : String) : Result Value :=
  match x with
  | dict d => (Dict.get d key).elim (.error ⟨.key, s!"'{key}'"⟩) .ok
  | list _ => typeError "list indices must be integers or slices, not str"
  | str _ => typeError "string indices must be integers, not 'str'"
  | x => typeError s!"'{x.typeName}' object is not subscriptable"

/-- `x[0]`. -/
def first (x : Value) : Result Value :=
  match x with
  | list l => l.head?.elim (.error ⟨.index, "list index out of range"⟩) .ok
  | str s => s.toList.head?.elim (.error ⟨.index, "string index out of range"⟩)
      fun c => .ok (str (String.singleton c))
  | dict _ => .error ⟨.key, "0"⟩
  | x => typeError s!"'{x.typeName}' object is not subscriptable"

/-- The dictionary that a method is called on. -/
def asDict (method : String) (x : Value) : Result (Dict String Value) :=
  x.asDict?.elim (.error ⟨.attribute, s!"'{x.typeName}' object has no attribute '{method}'"⟩) .ok

/-- `x.get(key)`; `none` if there is no such key. -/
def get (x : Value) (key : String) : Result (Option Value) :=
  (x.asDict "get").map fun d => Dict.get d key

/-- `x.get(key, default)`. -/
def getD (x : Value) (key : String) (default : Value) : Result Value :=
  (x.get key).map fun v => v.getD default

/-- The items of `for … in x`. -/
def iter (x : Value) : Result (List Value) :=
  match x with
  | list l => .ok l
  | dict d => .ok ((Dict.keys d).map str)
  | str s => .ok (s.toList.map fun c => str (String.singleton c))
  | x => typeError s!"'{x.typeName}' object is not iterable"

/-- `d.get(x, default)` for a dictionary `d` of text. -/
def lookup {α : Type} (d : Dict String α) (x : Value) : Result (Option α) :=
  match x with
  | str s => .ok (d.get s)
  | x => if x.hashable then .ok none else typeError s!"unhashable type: '{x.typeName}'"

/-- `int(x)`. -/
def toInt : Value → Result Int
  | int n => .ok n
  | bool b => .ok (if b then 1 else 0)
  | float x => .ok (if x < 0 then ⌈x⌉ else ⌊x⌋)
  | nan => .error ⟨.value, "cannot convert float NaN to integer"⟩
  | infinity _ => .error ⟨.overflow, "cannot convert float infinity to integer"⟩
  | str s => (Py.int s).elim
      (.error ⟨.value, s!"invalid literal for int() with base 10: '{s}'"⟩) .ok
  | x => typeError
      s!"int() argument must be a string, a bytes-like object or a real number, not '{x.typeName}'"

/-- `x + y` for a text `x`. -/
def concat (s : String) : Value → Result String
  | str t => .ok (s ++ t)
  | y => typeError s!"can only concatenate str (not \"{y.typeName}\") to str"

/-! ## On dictionaries -/

section
variable {x : Value} {key : String}

@[simp] theorem get_dict (d : Dict String Value) (key : String) :
    (dict d).get key = .ok (Dict.get d key) := rfl

@[simp] theorem getD_dict (d : Dict String Value) (key : String) (v : Value) :
    (dict d).getD key v = .ok ((Dict.get d key).getD v) := rfl

theorem getD_eq_ok {v w : Value} :
    x.getD key w = .ok v ↔ ∃ d, x = dict d ∧ (Dict.get d key).getD w = v := by
  cases x with
  | dict d => simp
  | _ =>
    constructor
    · intro h; cases h
    · rintro ⟨d, h, -⟩; cases h

/-- Its only exception is an `AttributeError`. -/
theorem getD_error {w : Value} {e : Error} (h : x.getD key w = .error e) :
    e.type = .attribute ∧ x.asDict? = none := by
  cases x with
  | dict d => cases h
  | _ => cases h; exact ⟨rfl, rfl⟩

theorem getD_none (key : String) (w : Value) (h : x.asDict? = none) :
    ∃ e, x.getD key w = .error e ∧ e.type = .attribute := by
  cases x with
  | dict d => cases h
  | _ => exact ⟨_, rfl, rfl⟩

theorem asDict?_eq_some {d : Dict String Value} : x.asDict? = some d ↔ x = dict d := by
  cases x <;> simp [asDict?]

end

end Value

end Py
