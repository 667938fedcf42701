import Reckoner.Formula.Scope
import Reckoner.Text.Blank

/-!
Substitution of line references and names. The reference `@N` becomes the result of line N, or zero
when the line has none. A name is replaced where it stands as a whole word, unless a parenthesis
after it makes it a call. A negative value is put in parentheses.
-/
namespace Reckoner.Formula

open Text Number

/-- The text of a value in an expression. -/
def literal (x : Float) : Except Breakdown (List Char) :=
  match numeral x with
  | .ok s => .ok (if x < 0 then '(' :: s ++ [')'] else s)
  | .error why => .error (.noWholePart why)

namespace Scope

/-- The literal of a line reference with the given digits. -/
def lineLiteral (scope : Scope) (digits : List Char) : Except Breakdown (List Char) :=
  if digitLimit < digits.length then .error (.tooManyDigits digits.length)
  else match Assoc.get? scope.lines (digitsValue digits) with
    | some x => literal x
    | none => .ok ['0']

/-- Replaces the line references; the flag says whether the digits of one are being dropped. -/
def substituteLines (scope : Scope) (within : Bool) : List Char → Except Breakdown (List Char)
  | [] => .ok []
  | c :: r =>
    if within && isDigit c then substituteLines scope true r
    else
      let digits := r.takeWhile isDigit
      if c = '@' ∧ digits ≠ [] then do
        let value ← lineLiteral scope digits
        let rest ← substituteLines scope true r
        return value ++ rest
      else do
        let rest ← substituteLines scope false r
        return c :: rest

/-- Whether a name may be replaced after a character. -/
def allowsNameAfter : Option Char → Bool
  | none => true
  | some c => !(isWord c || c == '.' || c == '@')

/-- Whether a name may end before a text: no word goes on, and no call begins. -/
def endsName (rest : List Char) : Bool :=
  (match rest with
    | [] => true
    | c :: _ => !isWord c)
  && (match rest.dropWhile isBlank with
    | '(' :: _ => false
    | _ => true)

/-- The first of some names that stands at the beginning of a text. -/
def nameAt? (names : List (List Char)) (last : Option Char) (s : List Char) :
    Option (List Char) :=
  if allowsNameAfter last then
    names.find? fun n => n.isPrefixOf s && endsName (s.drop n.length)
  else none

def nameLiteral (scope : Scope) (name : List Char) : Except Breakdown (List Char) :=
  literal ((Assoc.get? scope.named name).getD 0)

/-- Replaces the names; the first `skip` characters belong to a name that has been replaced. An
empty name stands wherever no other name does. -/
def substituteNames (scope : Scope) (names : List (List Char)) (last : Option Char) (skip : Nat) :
    List Char → Except Breakdown (List Char)
  | [] =>
    if skip = 0 ∧ nameAt? names last [] = some [] then scope.nameLiteral [] else .ok []
  | c :: r =>
    match skip with
    | more + 1 => substituteNames scope names (some c) more r
    | 0 =>
      match nameAt? names last (c :: r) with
      | none => do
        let rest ← substituteNames scope names (some c) 0 r
        return c :: rest
      | some [] => do
        let value ← scope.nameLiteral []
        let rest ← substituteNames scope names (some c) 0 r
        return value ++ c :: rest
      | some (d :: more) => do
        let value ← scope.nameLiteral (d :: more)
        let rest ← substituteNames scope names (some c) more.length r
        return value ++ rest

/-- Replaces the line references and then the names. -/
def substitute (scope : Scope) (s : List Char) : Except Breakdown (List Char) := do
  let s ← scope.substituteLines false s
  scope.substituteNames scope.names none 0 s

end Scope

end Reckoner.Formula
