import Reckoner.Number.Shortest
import Reckoner.Text.Blank
import Reckoner.Text.Numeric

/-!
Reading numbers. Digits of every script count, and outer white space other than the control
separators is ignored. A single underscore may stand between two digits. Whole numbers are also read
in a base that is a power of two: a zero and the letter of the base may stand before the digits, and
the number may have any length.
-/
namespace Reckoner.Number

open Text

/-- The longest whole number, in digits, that is read from a text. -/
def digitLimit : Nat := 4300

def foldDigits (values : List Nat) : Nat := values.foldl (fun n d => 10 * n + d) 0

/-- White space that may surround a number. -/
def isMargin (c : Char) : Bool := isBlank c && !(28 ≤ c.toNat && c.toNat ≤ 31)

def trimMargins (s : List Char) : List Char :=
  ((s.dropWhile isMargin).reverse.dropWhile isMargin).reverse

/-- Replaces each decimal digit by the ASCII digit of its value. -/
def asciiDigits (s : List Char) : List Char :=
  s.map fun c => match digitValue? c with
    | some d => Char.ofNat (48 + d)
    | none => c

/-- The value of a text of decimal digits. -/
def digitsValue (s : List Char) : Nat := foldDigits (s.filterMap digitValue?)

/-- Removes underscores that stand between two digits, and refuses any other. -/
def dropUnderscores (afterDigit : Bool) : List Char → Option (List Char)
  | [] => some []
  | '_' :: r =>
    match r with
    | d :: _ => if afterDigit && isAsciiDigit d then dropUnderscores false r else none
    | [] => none
  | c :: r => (dropUnderscores (isAsciiDigit c) r).map (c :: ·)

def splitSign : List Char → Bool × List Char
  | '-' :: r => (true, r)
  | '+' :: r => (false, r)
  | s => (false, s)

/-- Why a text is not a whole number. -/
inductive IntegerError
  | malformed
  | tooManyDigits (count : Nat)

def readInteger (s : List Char) : Except IntegerError Int :=
  let (negative, s) := splitSign (asciiDigits (trimMargins s))
  match dropUnderscores false s with
  | none => .error .malformed
  | some digits =>
    if digits.isEmpty || !digits.all isAsciiDigit then .error .malformed
    else if digitLimit < digits.length then .error (.tooManyDigits digits.length)
    else
      let n : Int := digitsValue digits
      .ok (if negative then -n else n)

/-- The double nearest to `m * 10 ^ e`. Exponents far beyond the range of doubles are settled by
the number of digits. -/
def nearestDecimal (negative : Bool) (m : Nat) (e : Int) : Float :=
  let order : Int := decimalLength m + e
  if m = 0 ∨ order < -400 then nearest negative 0 1
  else if 400 < order then nearest negative (tenTo 400) 1
  else nearest negative (m * tenTo e.toNat) (tenTo (-e).toNat)

/-- Digits with an optional point: the digits as one number, and how many follow the point. -/
def readMantissa (s : List Char) : Option (Nat × Nat × List Char) :=
  let whole := s.takeWhile isDigit
  match s.dropWhile isDigit with
  | '.' :: r =>
    let fraction := r.takeWhile isDigit
    if whole.isEmpty && fraction.isEmpty then none
    else some (digitsValue (whole ++ fraction), fraction.length, r.dropWhile isDigit)
  | r => if whole.isEmpty then none else some (digitsValue whole, 0, r)

def readExponent : List Char → Option Int
  | [] => some 0
  | c :: r =>
    if c = 'e' || c = 'E' then
      let (negative, s) := splitSign r
      if s.isEmpty || !s.all isDigit then none
      else
        let n : Int := digitsValue s
        some (if negative then -n else n)
    else none

/-- A number in decimal digits, with an optional point and exponent. -/
def readDecimal (negative : Bool) (s : List Char) : Option Float :=
  match readMantissa s with
  | none => none
  | some (m, places, rest) =>
    (readExponent rest).map fun e => nearestDecimal negative m (e - places)

def infinity (negative : Bool) : Float := nearest negative (tenTo 400) 1

def undefinedNumber : Float := Float.ofBits 0x7FF8000000000000

def asciiLower (s : List Char) : List Char := s.map Char.toLower

/-- Reads a number as data gives it: a sign, an exponent and the words for an infinity and for the
undefined value are allowed. -/
def readFloat (s : List Char) : Option Float :=
  let (negative, s) := splitSign (asciiDigits (trimMargins s))
  if asciiLower s == "inf".toList || asciiLower s == "infinity".toList then
    some (infinity negative)
  else if asciiLower s == "nan".toList then some undefinedNumber
  else (dropUnderscores false s).bind (readDecimal negative)

def baseLetter? (base : Nat) : Option Char :=
  if base = 2 then some 'b' else if base = 8 then some 'o' else if base = 16 then some 'x' else none

/-- Drops a zero and the letter of the base, which may be a capital. -/
def dropBaseLetter (base : Nat) : List Char → List Char
  | '0' :: c :: r => if baseLetter? base = some c.toLower then r else '0' :: c :: r
  | s => s

def readInBase? (base : Nat) (s : List Char) : Option Int :=
  let (negative, s) := splitSign (asciiDigits (trimMargins s))
  let digits := dropBaseLetter base s
  let values := (digits.filterMap hexValue?).filter (· < base)
  if digits.isEmpty || values.length != digits.length then none
  else
    let n := values.foldl (fun n d => base * n + d) 0
    some (if negative then -(n : Int) else n)

end Reckoner.Number
