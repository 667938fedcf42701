import Reckoner.Number.Layout

/-!
How a result is displayed. The number of decimal places is between 0 and 15. Magnitudes above
`10 ^ 15` and positive magnitudes below `10 ^ -10` are written with an exponent; all others are
written positionally, without trailing zeros and never as a negative zero.
-/
namespace Reckoner.Number

def maxPrecision : Nat := 15

def defaultPrecision : Int := 2

def clampPrecision (precision : Int) : Nat := min precision.toNat maxPrecision

def upperBound : Float := 1e15

def lowerBound : Float := 1e-10

def dropTrailingPoint (s : List Char) : List Char :=
  if s.getLast? = some '.' then s.dropLast else s

def trimDecimals (s : List Char) : List Char :=
  if s.contains '.' then dropTrailingPoint (dropTrailingZeros s) else s

def Binary.display (b : Binary) (magnitude : Float) (places : Nat) : List Char :=
  if upperBound < magnitude || (b.mantissa != 0 && magnitude < lowerBound) then
    withSign b.negative (b.scientific places)
  else
    let s := trimDecimals (b.fixed places)
    if s = ['0'] then s else withSign b.negative s

/-- The displayed text of a finite double. -/
def display (x : Float) (places : Nat) : Option (List Char) :=
  (Binary.ofFloat? x).map fun b => b.display x.abs places

end Reckoner.Number
