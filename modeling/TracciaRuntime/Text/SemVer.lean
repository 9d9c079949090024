/-
  Semantic versions and their precedence.

  A version is a numeric core, a pre-release of identifiers and a build; the build does not count.
-/
import Mathlib.Data.List.Basic

namespace Text

/-- An identifier of a pre-release. -/
inductive Identifier where
  | numeric (n : Nat)
  | text (cs : List Char)
  deriving DecidableEq

structure SemVer where
  major : Nat
  minor : Nat
  patch : Nat
  /-- the identifiers of the pre-release; a release has none -/
  pre : List Identifier := []
  deriving DecidableEq

namespace SemVer

/-- A decimal numeral. -/
def natOf (cs : List Char) : Option Nat :=
  if cs ≠ [] ∧ cs.all Char.isDigit then
    some (cs.foldl (fun n c => 10 * n + (c.toNat - '0'.toNat)) 0)
  else none

def identifierOf (cs : List Char) : Option Identifier :=
  match natOf cs with
  | some n => some (.numeric n)
  | none =>
    if cs ≠ [] ∧ cs.all (fun c => c.isAlphanum || c = '-') then some (.text cs) else none

/-- A version, if the text is one. -/
def parse (version : String) : Option SemVer := do
  let main := version.toList.takeWhile (· ≠ '+')
  let pre ← match main.dropWhile (· ≠ '-') with
    | [] => some []
    | _ :: cs => (cs.splitOn '.').mapM identifierOf
  match (main.takeWhile (· ≠ '-')).splitOn '.' with
  | [major, minor, patch] =>
    some { major := ← natOf major, minor := ← natOf minor, patch := ← natOf patch, pre }
  | _ => none

/-- Numbers come before texts. -/
def identifierLt : Identifier → Identifier → Bool
  | .numeric m, .numeric n => m < n
  | .numeric _, .text _ => true
  | .text _, .numeric _ => false
  | .text a, .text b => a < b

/-- Identifier by identifier; a longer list comes after its beginning. -/
def identifiersLt : List Identifier → List Identifier → Bool
  | _, [] => false
  | [], _ :: _ => true
  | a :: as, b :: bs => identifierLt a b || (a = b && identifiersLt as bs)

/-- A pre-release comes before its release. -/
def preLt : List Identifier → List Identifier → Bool
  | [], _ => false
  | _ :: _, [] => true
  | as, bs => identifiersLt as bs

/-- The version has a lower precedence. -/
def lt (v w : SemVer) : Bool :=
  v.major < w.major ||
    (v.major = w.major && (v.minor < w.minor ||
      (v.minor = w.minor && (v.patch < w.patch || (v.patch = w.patch && preLt v.pre w.pre)))))

end SemVer

/-- The second version exceeds the first one. -/
def Exceeds (version other : String) : Prop :=
  ∃ v w, SemVer.parse version = some v ∧ SemVer.parse other = some w ∧ v.lt w = true

end Text
