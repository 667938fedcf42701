import Reckoner.Arith.Token
import Reckoner.Fault
import Reckoner.Text.Blank

/-!
Reading arithmetic. Parentheses are balanced first: a text is unbalanced at its first closing
parenthesis without an open one, or else at the last parenthesis that is still open at the end.
The parser passes over the tokens once and keeps what is still open on a stack: parentheses, minus
signs and left operands that wait for their right operand. A minus sign takes the operand right
after it, so it binds tighter than a power. The first token that no expression can have at its place
is reported.
-/
namespace Reckoner.Arith

open Text

/-- Scans from a position with the positions of the open parentheses, the last one first. -/
def imbalanceFrom (opened : List Nat) (position : Nat) :
    List Char → Option (ParseProblem × Nat)
  | [] =>
    match opened with
    | [] => none
    | last :: _ => some (.unmatchedOpen, last)
  | c :: r =>
    if c = '(' then imbalanceFrom (position :: opened) (position + 1) r
    else if c = ')' then
      match opened with
      | [] => some (.unmatchedClose, position)
      | _ :: rest => imbalanceFrom rest (position + 1) r
    else imbalanceFrom opened (position + 1) r

def imbalance (s : List Char) : Option (ParseProblem × Nat) := imbalanceFrom [] 0 s

def checkBalance (s : List Char) : Except Fault Unit :=
  match imbalance s with
  | none => .ok ()
  | some (problem, position) => .error ⟨.parse problem position, some s⟩

inductive Frame
  | paren
  | minus
  | left (operand : Tree) (op : Op)

/-- What is expected next: an operand, an operand that may not start with a minus sign, or an
operator after a complete operand. -/
inductive State
  | operand (stack : List Frame)
  | primary (stack : List Frame)
  | operator (stack : List Frame) (operand : Tree)

/-- An operand is complete; a minus sign right before it takes it. -/
def settle : List Frame → Tree → State
  | .minus :: stack, t => .operator stack (.neg t)
  | stack, t => .operator stack t

/-- Joins the operand with the left operands that take it before the operator `next`. -/
def joinBefore (next : Op) : List Frame → Tree → List Frame × Tree
  | .left l op :: stack, t =>
    if op.takesBefore next then joinBefore next stack (.binary op l t)
    else (.left l op :: stack, t)
  | stack, t => (stack, t)

/-- Joins the operand with all left operands up to a parenthesis. -/
def joinAll : List Frame → Tree → List Frame × Tree
  | .left l op :: stack, t => joinAll stack (.binary op l t)
  | stack, t => (stack, t)

/-- The state after a token, or `none` when the token cannot stand here. -/
def State.next? : State → Token → Option State
  | .operand stack, .number literal => some (settle stack (.number literal))
  | .operand stack, .opening => some (.operand (.paren :: stack))
  | .operand stack, .operator .sub => some (.primary (.minus :: stack))
  | .primary stack, .number literal => some (settle stack (.number literal))
  | .primary stack, .opening => some (.operand (.paren :: stack))
  | .operator stack t, .operator op =>
    let (stack, t) := joinBefore op stack t
    some (.operand (.left t op :: stack))
  | .operator stack t, .closing =>
    match joinAll stack t with
    | (.paren :: stack, t) => some (settle stack t)
    | _ => none
  | _, _ => none

/-- The tree of a complete expression. -/
def State.result? : State → Option Tree
  | .operator stack t =>
    match joinAll stack t with
    | ([], t) => some t
    | _ => none
  | _ => none

def tokenProblem : Token → ParseProblem
  | .illegal c => .illegalCharacter c
  | token => .unexpectedToken token.text

/-- Runs over the tokens; `length` is the position of the end. -/
def runTokens (length : Nat) (state : State) :
    List (Nat × Token) → Except (ParseProblem × Nat) Tree
  | [] =>
    match state.result? with
    | some t => .ok t
    | none => .error (.unexpectedEnd, length)
  | (position, token) :: rest =>
    match state.next? token with
    | some next => runTokens length next rest
    | none => .error (tokenProblem token, position)

def parseTrimmed (s : List Char) : Except (ParseProblem × Nat) Tree :=
  if s.isEmpty then .error (.empty, 0)
  else match imbalance s with
    | some problem => .error problem
    | none => runTokens s.length (.operand []) (tokens 0 s)

/-- The tree of an expression; the white space around it is ignored. -/
def parse (s : List Char) : Except Fault Tree :=
  match parseTrimmed (trim s) with
  | .ok t => .ok t
  | .error (problem, position) => .error ⟨.parse problem position, some (trim s)⟩

end Reckoner.Arith
