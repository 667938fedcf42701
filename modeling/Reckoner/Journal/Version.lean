import Reckoner.Data.Value
import Reckoner.Number.Reading

/-!
Versions of events. A version is a whole number, which data may give in several forms. In a text it
may have white space around it, a sign, leading zeros, single underscores between its digits and a
fraction of zeros. Leading zeros may also stand before a minus sign.
-/
namespace Reckoner.Journal

open Text Number Data

/-- A number in plain digits without leading zeros. Its text has at most as many characters as the
longest number has digits. -/
def plainNumber? (s : List Char) : Option Int :=
  let (negative, digits) := match s with
    | '-' :: r => (true, r)
    | s => (false, s)
  if digits.isEmpty || !digits.all isAsciiDigit || digitLimit < s.length
    || (digits.head? = some '0' && digits.length != 1) then none
  else
    let n : Int := digitsValue digits
    some (if negative then -n else n)

/-- Takes a sign off; a minus sign may not follow a plus sign. -/
def takeSign : List Char → Option (Bool × List Char)
  | '-' :: r => some (true, r)
  | '+' :: '-' :: _ => none
  | '+' :: r => some (false, r)
  | s => some (false, s)

def isNonzeroDigit (c : Char) : Bool := '1' ≤ c && c ≤ '9'

/-- Drops zeros and underscores after a character, except the last before a point or the end. -/
def dropZeros (last : Char) : List Char → Option (List Char)
  | [] => some [last]
  | c :: r =>
    if c = '0' || c = '_' then dropZeros c r
    else if isNonzeroDigit c || c = '-' then some (c :: r)
    else if c = '.' then some (last :: c :: r)
    else none

def dropLeadingZeros : List Char → Option (List Char)
  | [] => none
  | c :: r =>
    if c = '0' then dropZeros c r
    else if isNonzeroDigit c || c = '-' then some (c :: r)
    else none

/-- Drops a point with zeros after it; a point alone stays. -/
def dropZeroFraction (s : List Char) : List Char :=
  match s.dropWhile (· != '.') with
  | '.' :: d :: r => if (d :: r).all (· == '0') then s.takeWhile (· != '.') else s
  | _ => s

def hasDoubleMark : List Char → Bool
  | '_' :: '_' :: _ => true
  | _ :: r => hasDoubleMark r
  | [] => false

/-- Drops single underscores inside a text. -/
def dropInnerMarks (s : List Char) : List Char :=
  if s.head? = some '_' || s.getLast? = some '_' || hasDoubleMark s then s
  else s.filter (· != '_')

/-- The plain form of a number in a text. -/
def plainForm? (s : List Char) : Option (List Char) := do
  let (negative, s) ← takeSign (trimMargins s)
  let s ← dropLeadingZeros s
  return withSign negative (dropInnerMarks (dropZeroFraction s))

/-- A whole number in a text. -/
def textNumber? (s : List Char) : Option Int := (plainForm? s).bind plainNumber?

/-- The doubles from here on are no whole numbers for a version. -/
def versionLimit : Float := 9223372036854775808

/-- A whole number in any form. -/
def wholeNumber? : Value → Option Int
  | .int n => some n
  | .bool b => some (if b then 1 else 0)
  | .text s => textNumber? s
  | .float x =>
    if x.abs < versionLimit then
      (Binary.ofFloat? x).bind fun b => if b.floor = b.ceiling then some b.floor else none
    else none
  | _ => none

end Reckoner.Journal
