/-!
Doubles as exact binary fractions. A finite double is taken apart into a sign, a whole number and
a power of two; a quotient of whole numbers is rounded to the nearest double, a tie to the even
neighbour. Every rule on numbers that must be exact goes through these two steps. Powers of two
scale doubles, powers of ten decimals.
-/
namespace Reckoner.Number

def twoTo (n : Nat) : Nat := Nat.pow 2 n

def tenTo (n : Nat) : Nat := Nat.pow 10 n

/-- The number `mantissa * 2 ^ exponent` with a sign. -/
structure Binary where
  negative : Bool
  mantissa : Nat
  exponent : Int

namespace Binary

/-- The parts of a double; an infinity and the undefined value have none. -/
def ofFloat? (x : Float) : Option Binary :=
  let bits := x.toBits.toNat
  let field : Nat := bits / twoTo 52 % 2048
  let fraction : Nat := bits % twoTo 52
  let negative := bits / twoTo 63 == 1
  if field = 2047 then none
  else if field = 0 then some ⟨negative, fraction, -1074⟩
  else some ⟨negative, fraction + twoTo 52, (field : Int) - 1075⟩

def signed (b : Binary) : Int := if b.negative then -(b.mantissa : Int) else b.mantissa

/-- The largest whole number not above the value. -/
def floor (b : Binary) : Int :=
  b.signed * twoTo b.exponent.toNat / twoTo (-b.exponent).toNat

/-- The smallest whole number not below the value. -/
def ceiling (b : Binary) : Int :=
  -(-b.signed * twoTo b.exponent.toNat / twoTo (-b.exponent).toNat)

/-- The whole part of the value. -/
def truncation (b : Binary) : Int := if b.negative then b.ceiling else b.floor

end Binary

def isNegative (x : Float) : Bool := x.toBits.toNat / twoTo 63 == 1

/-- The quotient as a whole number; a tie goes to the even neighbour. -/
def roundQuotient (num den : Nat) : Nat :=
  let q := num / den
  let r := num % den
  if 2 * r < den then q
  else if den < 2 * r then q + 1
  else if q % 2 = 0 then q else q + 1

/-- The exponent of the largest power of two not above a quotient of positive numbers. -/
def binaryOrder (num den : Nat) : Int :=
  let guess : Int := (num.log2 : Int) - den.log2
  if den * twoTo guess.toNat ≤ num * twoTo (-guess).toNat then guess else guess - 1

/-- The double nearest to a quotient, a tie to even; beyond the largest double it is infinite. -/
def nearest (negative : Bool) (num den : Nat) : Float :=
  let sign := if negative then twoTo 63 else 0
  if num = 0 then Float.ofBits (UInt64.ofNat sign)
  else
    let unit := max (binaryOrder num den - 52) (-1074)
    let m := roundQuotient (num * twoTo (-unit).toNat) (den * twoTo unit.toNat)
    let bits := (unit + 1074).toNat * twoTo 52 + m
    Float.ofBits (UInt64.ofNat (sign + min bits (2047 * twoTo 52)))

/-- The double nearest to `mantissa * 2 ^ exponent`. -/
def ofBinary (b : Binary) : Float :=
  nearest b.negative (b.mantissa * twoTo b.exponent.toNat) (twoTo (-b.exponent).toNat)

def ofInt (n : Int) : Float := nearest (n < 0) n.natAbs 1

/-- The remainder of a division that truncates: it has the sign of the dividend. -/
def remainder (x y : Float) : Option Float :=
  match Binary.ofFloat? x, Binary.ofFloat? y with
  | some a, some b =>
    let unit := min a.exponent b.exponent
    let m := a.mantissa * twoTo (a.exponent - unit).toNat
    let n := b.mantissa * twoTo (b.exponent - unit).toNat
    some (ofBinary ⟨a.negative, m % n, unit⟩)
  | _, _ => none

end Reckoner.Number
