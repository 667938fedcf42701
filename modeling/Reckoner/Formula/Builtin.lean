import Reckoner.Formula.Function
import Reckoner.Number.Elementary
import Reckoner.Number.Sum

/-!
The functions every expression may call. Sums and averages round once. `round` moves the decimal
point, takes the largest whole number not above the value plus one half, and moves the point back,
so halves round up.
-/
namespace Reckoner.Formula.Builtin

open Number

abbrev Result := Except Mishap Float

def ofOption (x : Option Float) (mishap : Mishap) : Result :=
  match x with
  | some x => .ok x
  | none => .error mishap

def total (values : List Float) : Result := ofOption (exactSum values) .tooLarge

def average (values : List Float) : Result := do
  let sum ← total values
  return sum / ofInt values.length

def smaller (x y : Float) : Float := if y < x then y else x

def larger (x y : Float) : Float := if x < y then y else x

/-- Picks one of the arguments; there is at least one. -/
def choose (pick : Float → Float → Float) : List Float → Result
  | [] => .error .undefined
  | x :: rest => .ok (rest.foldl pick x)

/-- The whole number that a rule takes from a double. -/
def whole (rule : Binary → Int) (x : Float) : Except Mishap Int :=
  match Binary.ofFloat? x with
  | some b => .ok (rule b)
  | none => .error (if x.isNaN then .undefined else .tooLarge)

/-- A power of ten as a double; those below the smallest double are zero. -/
def powerOfTen (digits : Int) : Result :=
  let x := raised 10 (ofInt digits)
  if x.isFinite then .ok x else .error .tooLarge

def roundTo (x digits : Float) : Result := do
  let places ← whole Binary.truncation digits
  let factor ← powerOfTen places
  let n ← whole Binary.floor (x * factor + 0.5)
  if factor == 0 then .error .zeroFactor else .ok (ofInt n / factor)

def round : List Float → Result
  | [x] => roundTo x 0
  | [x, digits] => roundTo x digits
  | _ => .error .undefined

def raise (base exponent : Float) : Result :=
  let x := raised base exponent
  if x.isFinite then .ok x
  else .error (if x.isNaN || base == 0 then .undefined else .tooLarge)

def pow : List Float → Result
  | [x] => raise x 2
  | [x, y] => raise x y
  | _ => .error .undefined

/-- A function of one argument. -/
def unary (f : Float → Result) : List Float → Result
  | [x] => f x
  | _ => .error .undefined

def squareRoot (x : Float) : Result := if x < 0 then .error .undefined else .ok x.sqrt

def floor (x : Float) : Result := do
  let n ← whole Binary.floor x
  return ofInt n

def ceiling (x : Float) : Result := do
  let n ← whole Binary.ceiling x
  return ofInt n

/-- A logarithm, which only positive numbers have. -/
def logarithm (f : Float → Float) (x : Float) : Result :=
  if 0 < x then .ok (f x) else .error .undefined

/-- Registers functions of one argument, one after the other. -/
def registerUnary (table : FunctionTable) (functions : List (String × String × (Float → Result))) :
    FunctionTable :=
  functions.foldl
    (fun table f => table.register [f.1.toList] 1 (some 1) f.2.1.toList (unary f.2.2)) table

def names (s : List String) : List (List Char) := s.map String.toList

def several : FunctionTable :=
  FunctionTable.register [] (names ["sum"]) 1 none "Sum of all arguments.".toList total
  |>.register (names ["avg", "average"]) 1 none "Arithmetic mean of all arguments.".toList average
  |>.register (names ["min"]) 1 none "Smallest argument.".toList (choose smaller)
  |>.register (names ["max"]) 1 none "Largest argument.".toList (choose larger)
  |>.register (names ["round"]) 1 (some 2)
      "Round x to the given number of decimal digits (halves round up).".toList round
  |>.register (names ["pow"]) 1 (some 2)
      "base raised to exponent (squares when exponent is omitted).".toList pow

def table : FunctionTable :=
  registerUnary several [
    ("sqrt", "Square root.", squareRoot),
    ("abs", "Absolute value.", fun x => .ok x.abs),
    ("floor", "Largest integer not above x.", floor),
    ("ceil", "Smallest integer not below x.", ceiling),
    ("sin", "Sine of x radians.", fun x => .ok (sine x)),
    ("cos", "Cosine of x radians.", fun x => .ok (cosine x)),
    ("tan", "Tangent of x radians.", fun x => .ok (tangent x)),
    ("log", "Base-10 logarithm.", logarithm Float.log10),
    ("ln", "Natural logarithm.", logarithm Float.log)]

end Reckoner.Formula.Builtin
