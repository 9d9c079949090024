/-
  SQL as its readers see it: comments, quoted names and string literals.

  A line comment ends before the next line, block comments nest, and a doubled quote inside quotes
  is one of the characters between them.
-/
import Mathlib.Data.List.Basic

namespace Text.Sql

/-- What the next character belongs to. -/
inductive Region where
  | code
  | name
  | literal
  | line
  | block (depth : Nat)
  deriving DecidableEq

/-- The text without its comments and without the contents of its string literals. -/
def bare : Region → List Char → List Char
  | _, [] => []
  | .code, [c] => [c]
  | .code, c :: d :: cs =>
    if c = '-' ∧ d = '-' then bare .line cs
    else if c = '/' ∧ d = '*' then bare (.block 0) cs
    else if c = '\u0027' then c :: bare .literal (d :: cs)
    else if c = '"' then c :: bare .name (d :: cs)
    else c :: bare .code (d :: cs)
  | .name, c :: cs => c :: bare (if c = '"' then .code else .name) cs
  | .literal, [c] => if c = '\u0027' then [c] else []
  | .literal, c :: d :: cs =>
    if c = '\u0027' ∧ d = '\u0027' then bare .literal cs
    else if c = '\u0027' then c :: bare .code (d :: cs)
    else bare .literal (d :: cs)
  | .line, c :: cs => if c = '\n' then c :: bare .code cs else bare .line cs
  | .block _, [_] => []
  | .block n, c :: d :: cs =>
    if c = '/' ∧ d = '*' then bare (.block (n + 1)) cs
    else if c = '*' ∧ d = '/' then bare (if n = 0 then .code else .block (n - 1)) cs
    else bare (.block n) (d :: cs)

/-- The code of a text. -/
def code (sql : String) : String := String.ofList (bare .code sql.toList)

example : bare .code "a - 'b''c' -- d\n/* e */f".toList = "a - '' \nf".toList := by decide

end Text.Sql
