import Reckoner.Data.Numeric
import Reckoner.Text.Order
import Reckoner.Text.Word

/-!
Scopes: the values that names and line references stand for. A name may also be pending, when the
document gives it a value later; then it stands for zero. A scope can be read from loosely typed
data, in which numbers may be texts.
-/
namespace Reckoner.Formula

open Text Number Data

structure Scope where
  named : Assoc (List Char) Float
  lines : Assoc Int Float
  pending : List (List Char)

namespace Scope

def empty : Scope := ⟨[], [], []⟩

def readNumber (place : List Char) (v : Value) : Except Failure Float :=
  match v.toFloat with
  | .error b => .error (.breakdown b)
  | .ok none => .error (.of (.notANumber place v))
  | .ok (some x) => if x.isFinite then .ok x else .error (.of (.notFinite place v))

def readLine (key : List Char) : Except Failure Int :=
  match readInteger key with
  | .ok n => .ok n
  | .error _ => .error (.of (.notALine key))

def readVariables : List (List Char × Value) → Except Failure (List (List Char × Float))
  | [] => .ok []
  | (name, v) :: rest => do
    let x ← readNumber ("variable ".toList ++ quoted name) v
    let entries ← readVariables rest
    return (name, x) :: entries

def readLines : List (List Char × Value) → Except Failure (List (Int × Float))
  | [] => .ok []
  | (key, v) :: rest => do
    let line ← readLine key
    let x ← readNumber ("line ".toList ++ quoted key) v
    let entries ← readLines rest
    return (line, x) :: entries

/-- The entries of a mapping; anything that does not hold counts as an empty one. -/
def entriesOf (v : Option Value) : Except Failure (List (List Char × Value)) :=
  match v with
  | some (.map entries) => .ok entries
  | some v => if v.holds then .error (.breakdown .notAMapping) else .ok []
  | none => .ok []

def create (named lines : Option Value) (pending : List (List Char)) :
    Except Failure Scope := do
  let variableEntries ← entriesOf named
  let variableValues ← readVariables variableEntries
  let lineEntries ← entriesOf lines
  let lineValues ← readLines lineEntries
  return ⟨Assoc.ofList variableValues, Assoc.ofList lineValues, pending⟩

/-- Reads a scope from a mapping with `variables` and `line_results`; the second key has another
spelling, which counts when the first is absent. -/
def ofValue : Value → Except Failure Scope
  | .null => .ok empty
  | .map entries =>
    let lines :=
      match Assoc.get? entries "line_results".toList with
      | some v => some v
      | none => Assoc.get? entries "lineResults".toList
    create (Assoc.get? entries "variables".toList) lines []
  | _ => .error (.breakdown .notAMapping)

/-- The known names, longest first and then by code points. -/
def names (scope : Scope) : List (List Char) :=
  (Assoc.keys scope.named ++ scope.pending).mergeSort fun a b =>
    b.length < a.length || (a.length == b.length && atMost a b)

end Scope

end Reckoner.Formula
