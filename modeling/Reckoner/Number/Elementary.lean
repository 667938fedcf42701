import Reckoner.Number.Binary

/-!
Powers and trigonometric functions. Their values at a zero are settled here, as the standard for
doubles has them: a power with the exponent zero is one, another power of zero is zero or infinite
and has the sign of the base when the exponent is odd, and the sine and the tangent of a zero are
this zero. Everywhere else the functions of the platform are taken.
-/
namespace Reckoner.Number

/-- Whether a double is an odd whole number. -/
def isOdd (x : Float) : Bool :=
  match Binary.ofFloat? x with
  | some b =>
    let unit := twoTo (-b.exponent).toNat
    b.mantissa * twoTo b.exponent.toNat % (2 * unit) == unit
  | none => false

/-- A zero raised to an exponent that is not zero. -/
def zeroPower (base exponent : Float) : Float :=
  let zero := if isOdd exponent then base else 0
  if 0 < exponent then zero else if exponent < 0 then 1 / zero else exponent

def raised (base exponent : Float) : Float :=
  if exponent == 0 then 1
  else if base == 0 then zeroPower base exponent
  else base.pow exponent

def sine (x : Float) : Float := if x == 0 then x else x.sin

def cosine (x : Float) : Float := if x == 0 then 1 else x.cos

def tangent (x : Float) : Float := if x == 0 then x else x.tan

end Reckoner.Number
