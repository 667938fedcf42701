/-!
Arithmetic expressions: decimal literals, a minus sign in front of an operand and six binary
operators. `Tree.written` is the bracketed form of a tree; parentheses of the text leave no node.
-/
namespace Reckoner.Arith

inductive Op
  | add
  | sub
  | mul
  | div
  | mod
  | pow
deriving DecidableEq, Inhabited

namespace Op

def symbol : Op → Char
  | add => '+'
  | sub => '-'
  | mul => '*'
  | div => '/'
  | mod => '%'
  | pow => '^'

def name : Op → List Char
  | add => "add".toList
  | sub => "sub".toList
  | mul => "mul".toList
  | div => "div".toList
  | mod => "mod".toList
  | pow => "pow".toList

def all : List Op := [add, sub, mul, div, mod, pow]

def ofSymbol? (c : Char) : Option Op := all.find? (·.symbol == c)

def ofName? (s : List Char) : Option Op := all.find? (·.name == s)

/-- A higher level binds tighter. -/
def level : Op → Nat
  | add => 1
  | sub => 1
  | mul => 2
  | div => 2
  | mod => 2
  | pow => 3

/-- Whether an operator takes the operand between it and a later operator. Of two operators of one
level the earlier takes it, except that powers group to the right. -/
def takesBefore (earlier later : Op) : Bool :=
  later.level < earlier.level || (later.level == earlier.level && later != pow)

end Op

def isOperator (c : Char) : Bool := (Op.ofSymbol? c).isSome

inductive Tree
  | number (literal : List Char)
  | neg (operand : Tree)
  | binary (op : Op) (left right : Tree)

def Tree.written : Tree → List Char
  | number literal => "(number ".toList ++ literal ++ [')']
  | neg t => "(neg ".toList ++ t.written ++ [')']
  | binary op l r => '(' :: op.name ++ ' ' :: l.written ++ ' ' :: r.written ++ [')']

end Reckoner.Arith
