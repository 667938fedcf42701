import Reckoner.Arith.Parser
import Reckoner.Number.Elementary

/-!
The value of an expression. Operands are evaluated from left to right, each before its operator.
Every literal and every result of an operator must be finite; a zero divisor and a power without a
value are reported as such.
-/
namespace Reckoner.Arith

open Number

def finite (step : Step) (x : Float) : Except Cause Float :=
  if x.isFinite then .ok x else .error (.nonFinite step)

def literalValue (literal : List Char) : Float :=
  (readDecimal false literal).getD undefinedNumber

/-- A power. An undefined power, and a zero raised to a negative number, have no value. -/
def power (base exponent : Float) : Except Cause Float :=
  let x := raised base exponent
  if x.isFinite then .ok x
  else if x.isNaN || base == 0 then .error (.powerUndefined base exponent)
  else .error (.powerTooLarge base exponent)

namespace Op

def apply (op : Op) (x y : Float) : Except Cause Float :=
  match op with
  | add => finite .addition (x + y)
  | sub => finite .subtraction (x - y)
  | mul => finite .multiplication (x * y)
  | div => if y == 0 then .error .zeroDivisor else finite .division (x / y)
  | mod =>
    if y == 0 then .error .zeroModulus
    else finite .modulo ((remainder x y).getD undefinedNumber)
  | pow => power x y

end Op

def Tree.value : Tree → Except Cause Float
  | number literal => finite .literal (literalValue literal)
  | neg t => do
    let x ← t.value
    return -x
  | binary op l r => do
    let x ← l.value
    let y ← r.value
    op.apply x y

/-- The value of an arithmetic text. -/
def evaluate (s : List Char) : Except Fault Float := do
  let t ← parse s
  match t.value with
  | .ok x => .ok x
  | .error cause => .error ⟨cause, some s⟩

end Reckoner.Arith
