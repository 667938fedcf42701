import Reckoner.Data.Numeric
import Reckoner.Number.Display

/-!
Results as they are shown. The precision comes from loosely typed data; it is read only for a number
that can be shown at all.
-/
namespace Reckoner.Data

open Number

/-- The number of decimal places that a value asks for. -/
def places (precision : Value) : Except Breakdown Nat := do
  let n ← precision.toInt
  return clampPrecision n

def present (x : Float) (precision : Value) : Except Breakdown (List Char) :=
  if x.isFinite then do
    let n ← places precision
    match display x n with
    | some s => return s
    | none => .error (.noDisplay x)
  else .error (.noDisplay x)

end Reckoner.Data
