import Reckoner.Fault

/-!
Values read as numbers. Truth values count as 0 and 1, texts are read, and a number with a
fractional part loses it where a whole number is asked for.
-/
namespace Reckoner.Data.Value

open Number

def toInt : Value → Except Breakdown Int
  | int n => .ok n
  | bool b => .ok (if b then 1 else 0)
  | float x =>
    match Binary.ofFloat? x with
    | some b => .ok b.truncation
    | none => .error (.noWholePart (unwritable x))
  | text s =>
    match readInteger s with
    | .ok n => .ok n
    | .error .malformed => .error (.malformedInteger 10 s)
    | .error (.tooManyDigits count) => .error (.tooManyDigits count)
  | v => .error (.notNumeric v.kindName)

/-- The double of a value, `none` for a value that is no number; a whole number beyond the range
of doubles has none. -/
def toFloat : Value → Except Breakdown (Option Float)
  | int n => if (ofInt n).isFinite then .ok (some (ofInt n)) else .error .integerTooLarge
  | bool b => .ok (some (if b then 1 else 0))
  | float x => .ok (some x)
  | text s => .ok (readFloat s)
  | _ => .ok none

end Reckoner.Data.Value
