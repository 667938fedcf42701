import Reckoner.Number.Shortest

/-!
The three ways to write a double. `shown` is the form used in messages and data: the shortest
digits, positional between `10 ^ -4` and `10 ^ 16` and with an exponent outside. `numeral` is the
plain form that expressions accept: never an exponent. `fixed` and `scientific` keep a given number
of decimal places.
-/
namespace Reckoner.Number

def decimalDigits (n : Nat) : List Char := Nat.toDigits 10 n

def zeroDigits (n : Nat) : List Char := List.replicate n '0'

def dropTrailingZeros (s : List Char) : List Char :=
  (s.reverse.dropWhile (· == '0')).reverse

/-- The digits of a decimal without trailing zeros, and the place of its decimal point counted
from the first digit. -/
def Decimal.places (d : Decimal) : List Char × Int :=
  let s := decimalDigits d.digits
  (dropTrailingZeros s, s.length + d.exponent)

/-- Writes digits around a decimal point, padded with zeros on either side; `whole` ends a number
without decimal places. -/
def positional (whole : List Char) (s : List Char) (point : Int) : List Char :=
  if point ≤ 0 then '0' :: '.' :: zeroDigits (-point).toNat ++ s
  else if s.length ≤ point.toNat then s ++ zeroDigits (point.toNat - s.length) ++ whole
  else s.take point.toNat ++ '.' :: s.drop point.toNat

def exponentMark (e : Int) : List Char :=
  let s := decimalDigits e.natAbs
  'e' :: (if e < 0 then '-' else '+') :: zeroDigits (2 - s.length) ++ s

/-- One digit, the other digits after a point, and an exponent. -/
def exponential (s : List Char) (e : Int) : List Char :=
  match s with
  | [] => []
  | [d] => d :: exponentMark e
  | d :: rest => d :: '.' :: rest ++ exponentMark e

def withSign (negative : Bool) (s : List Char) : List Char :=
  if negative then '-' :: s else s

def shown (x : Float) : List Char :=
  match Binary.ofFloat? x with
  | none =>
    if x.isNaN then "nan".toList else withSign (isNegative x) "inf".toList
  | some b =>
    withSign b.negative <|
      if b.mantissa = 0 then "0.0".toList
      else
        let (s, point) := (shortest b.mantissa b.exponent).places
        if -4 < point && point ≤ 16 then positional ['.', '0'] s point
        else exponential s (point - 1)

/-- Why a double has no numeral or no whole part. -/
inductive Unwritable
  | infinite
  | undefined
deriving DecidableEq

def unwritable (x : Float) : Unwritable := if x.isNaN then .undefined else .infinite

/-- Whole numbers below `10 ^ 16` are written in full, other numbers with the shortest digits. -/
def Binary.numeral (b : Binary) : List Char :=
  let whole := b.mantissa * twoTo b.exponent.toNat / twoTo (-b.exponent).toNat
  if whole * twoTo (-b.exponent).toNat = b.mantissa * twoTo b.exponent.toNat
      ∧ whole < tenTo 16 then
    withSign (b.negative && whole != 0) (decimalDigits whole)
  else
    let (s, point) := (shortest b.mantissa b.exponent).places
    withSign b.negative (positional [] s point)

def numeral (x : Float) : Except Unwritable (List Char) :=
  match Binary.ofFloat? x with
  | none => .error (unwritable x)
  | some b => .ok b.numeral

/-- The magnitude rounded to a number of decimal places, a tie to even. -/
def Binary.fixed (b : Binary) (places : Nat) : List Char :=
  let (num, den) := scaledDown b.mantissa b.exponent (-places)
  let n := roundQuotient num den
  let s := decimalDigits n
  let s := zeroDigits (places + 1 - s.length) ++ s
  let whole := s.take (s.length - places)
  if places = 0 then whole else whole ++ '.' :: s.drop (s.length - places)

/-- The magnitude with one digit before the point and a number of places after it. -/
def Binary.scientific (b : Binary) (places : Nat) : List Char :=
  let order := decimalOrder b.mantissa b.exponent
  let (num, den) := scaledDown b.mantissa b.exponent (order - 1 - places)
  let n := roundQuotient num den
  if n = tenTo (places + 1) then exponential (decimalDigits (tenTo places)) order
  else exponential (decimalDigits n) (order - 1)

end Reckoner.Number
