import Reckoner.Fault
import Reckoner.Text.Casing
import Reckoner.Text.Lines
import Reckoner.Text.Blank
import Reckoner.Text.Order

/-!
Functions that expressions may call, and the table that finds them by name. Names are found without
regard to case. Registering a function under a name replaces the function that had the name.
-/
namespace Reckoner.Formula

open Text

/-- Why a function has no value for its arguments. -/
inductive Mishap
  | tooLarge
  | undefined
  | zeroFactor
deriving DecidableEq

structure Function where
  name : List Char
  least : Nat
  most : Option Nat
  summary : List Char
  apply : List Float → Except Mishap Float

namespace Function

/-- What is wrong with a number of arguments. -/
def arityProblem? (f : Function) (count : Int) : Option ArgumentProblem :=
  match f.most with
  | none => if count < f.least then some (.tooFew f.least count) else none
  | some most =>
    if f.least ≤ count && count ≤ most then none else some (.wrongCount f.least most count)

def checkArity (f : Function) (count : Int) : Except Fault Unit :=
  match f.arityProblem? count with
  | none => .ok ()
  | some problem => .error ⟨.argument f.name problem, none⟩

def commaJoined : List (List Char) → List Char
  | [] => []
  | [s] => s
  | s :: rest => s ++ ',' :: ' ' :: commaJoined rest

/-- The name with its parameters; at most three parameters are shown. -/
def signature (f : Function) : List Char :=
  match f.most with
  | none => f.name ++ "(x, ...)".toList
  | some most =>
    let required := ['x', 'y', 'z'].take f.least
    let optional := (['x', 'y', 'z'].take most).drop f.least
    f.name ++ '(' :: commaJoined (required.map ([·]))
      ++ optional.flatMap (fun p => "[, ".toList ++ [p, ']']) ++ [')']

end Function

/-- The functions by their lower case names. -/
abbrev FunctionTable := Assoc (List Char) Function

namespace FunctionTable

/-- The first line of a description. -/
def firstLine (description : List Char) : List Char :=
  ((lines (trim description)).head?).getD []

/-- Registers a function under each of several names. -/
def register (table : FunctionTable) (names : List (List Char)) (least : Nat) (most : Option Nat)
    (description : List Char) (apply : List Float → Except Mishap Float) : FunctionTable :=
  names.foldl
    (fun table name =>
      Assoc.set table (lower name) ⟨lower name, least, most, firstLine description, apply⟩)
    table

def find? (table : FunctionTable) (name : List Char) : Option Function :=
  Assoc.get? table (lower name)

/-- The function of a name, in any case. -/
def find (table : FunctionTable) (name : List Char) : Except Fault Function :=
  match find? table name with
  | some f => .ok f
  | none => .error ⟨.unknownFunction name, none⟩

def contains (table : FunctionTable) (name : List Char) : Bool := Assoc.has table (lower name)

/-- All functions in the order of their names. -/
def sorted (table : FunctionTable) : List Function := (sortByKey table).map (·.2)

end FunctionTable

end Reckoner.Formula
