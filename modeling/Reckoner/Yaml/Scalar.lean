import Reckoner.Number.Reading
import Reckoner.Text.Base64
import Reckoner.Text.Casing
import Reckoner.Text.Lines
import Reckoner.Yaml.Datum
import Reckoner.Yaml.Kind

/-!
The data of scalars. The kind of a scalar says how its text is read; where a tag asks for a kind,
the text may be of any form.
-/
namespace Reckoner.Yaml

open Text Data Number

def dropMarks (s : List Char) : List Char := s.filter (· != '_')

def inBase (base : Nat) (s : List Char) : Reading Int :=
  match readInBase? base s with
  | some n => .ok n
  | none => broken (.malformedInteger base s)

def decimalInteger (s : List Char) : Reading Int :=
  match (Value.text s).toInt with
  | .ok n => .ok n
  | .error b => broken b

def decimalIntegers : List (List Char) → Reading (List Int)
  | [] => .ok []
  | s :: rest => do
    let n ← decimalInteger s
    let later ← decimalIntegers rest
    return n :: later

def sixties (parts : List Int) : Int := parts.foldl (fun n d => 60 * n + d) 0

/-- A whole number after its sign: binary, hexadecimal, octal, in parts of sixty or decimal. -/
def magnitude (s : List Char) : Reading Int :=
  match s with
  | [] => broken (.unreadable .emptyNumber)
  | ['0'] => .ok 0
  | '0' :: 'b' :: r => inBase 2 r
  | '0' :: 'x' :: r => inBase 16 r
  | '0' :: _ => inBase 8 s
  | _ =>
    if s.contains ':' then (decimalIntegers (splitAt (· == ':') s)).map sixties
    else decimalInteger s

def integer (s : List Char) : Reading Int :=
  match dropMarks s with
  | '-' :: r => (magnitude r).map (- ·)
  | s => magnitude (Kind.dropSign s)

def decimalFloat (s : List Char) : Reading Float :=
  match readFloat s with
  | some x => .ok x
  | none => broken (.malformedNumber s)

def decimalFloats : List (List Char) → Reading (List Float)
  | [] => .ok []
  | s :: rest => do
    let x ← decimalFloat s
    let later ← decimalFloats rest
    return x :: later

/-- Sums parts of sixty from the last to the first; `weight` is that of the last part, which must be
in the range of doubles. -/
def weightedSum (total : Float) (weight : Nat) : List Float → Reading Float
  | [] => .ok total
  | x :: rest =>
    if (ofInt weight).isFinite then weightedSum (total + x * ofInt weight) (60 * weight) rest
    else broken .integerTooLarge

def number (s : List Char) : Reading Float := do
  match lower (dropMarks s) with
  | [] => broken (.unreadable .emptyNumber)
  | c :: r =>
    let body := if c = '-' || c = '+' then r else c :: r
    let x ←
      if body = ".inf".toList then pure (infinity false)
      else if body = ".nan".toList then pure undefinedNumber
      else if body.contains ':' then do
        let parts ← decimalFloats (splitAt (· == ':') body)
        weightedSum 0 1 parts.reverse
      else decimalFloat body
    return if c = '-' then -x else x

def truthValue (s : List Char) : Reading Bool :=
  let s := lower s
  if Kind.trueWords.contains s then .ok true
  else if Kind.falseWords.contains s then .ok false
  else broken (.unreadable .noTruthValue)

def time (s : List Char) : Reading Datum :=
  match Moment.ofText? s with
  | none => broken (.unreadable .noTime)
  | some m =>
    match m.problem? with
    | some problem => broken (.noTime problem)
    | none => .ok (.time m.clock.isSome s)

def binary (s : List Char) : Reading Datum :=
  if s.all (·.toNat < 128) then
    match Base64.decode? s with
    | some bytes => .ok (.bytes bytes)
    | none => refuse
  else refuse

/-- The datum of a text as a scalar of a kind. -/
def scalarDatum (kind : Kind) (s : List Char) : Reading Datum :=
  match kind with
  | .null => .ok .null
  | .bool => (truthValue s).map fun b => .scalar (.bool b)
  | .int => (integer s).map .int
  | .float => (number s).map fun x => .scalar (.float x)
  | .time => time s
  | .text => .ok (.text s)
  | .binary => binary s
  | _ => refuse

end Reckoner.Yaml
