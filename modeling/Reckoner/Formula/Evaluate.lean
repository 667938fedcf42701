import Reckoner.Arith.Value
import Reckoner.Formula.Builtin
import Reckoner.Formula.Call
import Reckoner.Formula.Canonical
import Reckoner.Formula.Substitution

/-!
The value of an expression in a scope. Names and line references are replaced by their values, the
text is put into canonical form, and each function call is replaced by its value, the innermost
calls first. What is left must be arithmetic. An argument that is no plain number is evaluated as an
expression of its own. Each call loses at least the letters of its name and no step adds letters,
so an argument always has fewer letters than the text it comes from; this ends the recursion.
-/
namespace Reckoner.Formula

open Text Number Arith

/-- How deep calls may nest unless a caller says otherwise. -/
def defaultDepth : Int := 10

/-- How an argument that is no plain number gets its value. -/
abbrev Resolver := List Char → Except Failure Float

/-- A minus sign or none, and then a decimal literal. -/
def isPlainNumber (s : List Char) : Bool :=
  let digits := match s with
    | '-' :: r => r
    | _ => s
  digits != [] && takeLiteral digits == digits

def argumentProblem (function : List Char) (problem : ArgumentProblem) : Failure :=
  .of (.argument function problem)

/-- A text that cannot be read as an expression is no numeric argument. -/
def resolveArgument (function : List Char) (resolve : Resolver) (argument : List Char) :
    Except Failure Float :=
  let s := trim argument
  if s.isEmpty then .error (argumentProblem function .empty)
  else
    let plain := if isPlainNumber s then readFloat s else none
    match plain.filter Float.isFinite with
    | some x => .ok x
    | none =>
      match resolve s with
      | .error (.fault ⟨.parse _ _, _⟩) => .error (argumentProblem function (.notNumeric s))
      | result => result

def resolveArguments (function : List Char) (resolve : Resolver) :
    List (List Char) → Except Failure (List Float)
  | [] => .ok []
  | argument :: rest => do
    let x ← resolveArgument function resolve argument
    let xs ← resolveArguments function resolve rest
    return x :: xs

/-- The result of a function, which must be finite. -/
def settleResult (function : List Char) (result : Except Mishap Float) : Except Failure Float :=
  match result with
  | .ok x => if x.isFinite then .ok x else .error (.of (.functionNonFinite function))
  | .error .tooLarge => .error (.of (.functionTooLarge function))
  | .error .undefined => .error (.of (.functionUndefined function))
  | .error .zeroFactor => .error (.breakdown .zeroFactor)

def asFailure {α : Type} (result : Except Fault α) : Except Failure α :=
  match result with
  | .ok a => .ok a
  | .error f => .error (.fault f)

def asBreakdown {α : Type} (result : Except Breakdown α) : Except Failure α :=
  match result with
  | .ok a => .ok a
  | .error b => .error (.breakdown b)

/-- The value of a function call with the given argument texts. -/
def call (table : FunctionTable) (resolve : Resolver) (name : List Char)
    (arguments : List (List Char)) : Except Failure Float := do
  let f ← asFailure (table.find name)
  asFailure (f.checkArity arguments.length)
  let values ← resolveArguments f.name resolve arguments
  settleResult f.name (f.apply values)

/-- Replaces calls by their values; the last call is evaluated first. -/
def replaceCalls (table : FunctionTable) (resolve : Resolver) (s : List Char) :
    List Call → Except Failure (List Char)
  | [] => .ok s
  | c :: later => do
    let s ← replaceCalls table resolve s later
    let x ← call table resolve c.name (splitArguments c.arguments)
    let value ← asBreakdown (literal x)
    return s.take c.start ++ value ++ s.drop c.stop

/-- Replaces calls, innermost first, in as many rounds as are left; `bound` is the number of rounds
allowed in all. -/
def replaceRounds (table : FunctionTable) (resolve : Resolver) (bound : Int) :
    Nat → List Char → Except Failure (List Char)
  | left, s => do
    let calls ← asFailure (innermostCalls s)
    if calls.isEmpty then return s
    else match left with
      | 0 => .error (.within (.tooDeep bound) s)
      | left + 1 => do
        let s ← replaceCalls table resolve s calls
        replaceRounds table resolve bound left s

def resolveCalls (table : FunctionTable) (resolve : Resolver) (bound : Int) (s : List Char) :
    Except Failure (List Char) :=
  replaceRounds table resolve bound bound.toNat s

/-- The first name in a text that starts after neither a word character nor a point. -/
def firstNameFrom (last : Option Char) (position : Nat) :
    List Char → Option (List Char × Nat)
  | [] => none
  | c :: r =>
    if allowsName last && isNameStart c then some ((c :: r).takeWhile isWord, position)
    else firstNameFrom (some c) (position + 1) r

/-- The value of a text without calls: no name may be left in it. -/
def settleText (s : List Char) : Except Failure Float :=
  match firstNameFrom none 0 s with
  | some (name, position) => .error (.within (.parse (.unknownName name) position) s)
  | none => asFailure (Arith.evaluate s)

/-- The canonical text of an expression with the values of its names. -/
def prepare (scope : Scope) (s : List Char) : Except Failure (List Char) := do
  let s ← asBreakdown (scope.substitute s)
  return canonical s

/-- The value of an expression in a scope; calls may nest up to `depth`. -/
def evaluate (table : FunctionTable) (depth : Int) (scope : Scope) (s : List Char) :
    Except Failure Float := do
  let text ← prepare scope s
  let resolve : Resolver := fun argument =>
    if letterCount argument < letterCount s then evaluate table depth scope argument
    else settleText argument
  let text ← resolveCalls table resolve depth text
  settleText text
termination_by letterCount s

end Reckoner.Formula
