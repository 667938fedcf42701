import Reckoner.Arith.Value

/-!
Trees whose nodes carry names. Such a tree may come from outside, so its nodes may have unknown
names or the wrong children; the trees of the parser are those with neither.
-/
namespace Reckoner.Arith

open Number

inductive Labelled
  | leaf (literal : List Char)
  | node (rule : List Char) (children : List Labelled)
deriving Inhabited

/-- What a part of a labelled tree evaluates to: a literal stays a text until a node reads it. -/
inductive Part
  | literal (s : List Char)
  | number (x : Float)

/-- Either a cause found in an operation, which belongs to the evaluated text, or a failure that
stands by itself. -/
inductive LabelledFailure
  | cause (c : Cause)
  | failure (f : Failure)

def operate (result : Except Cause Float) : Except LabelledFailure Part :=
  match result with
  | .ok x => .ok (.number x)
  | .error c => .error (.cause c)

def malformed : Except LabelledFailure Part := .error (.failure (.breakdown .malformedTree))

/-- The value of an operator node. A zero divisor is found before the dividend is looked at. -/
def operatorValue (op : Op) (children : List Part) : Except LabelledFailure Part :=
  match children with
  | [.number x, .number y] => operate (op.apply x y)
  | [.literal _, .number y] =>
    if y == 0 && (op == .div || op == .mod) then operate (op.apply 0 y) else malformed
  | _ => malformed

/-- The value of a node from the values of its children. -/
def nodeValue (rule : List Char) (children : List Part) : Except LabelledFailure Part :=
  if rule = "start".toList then
    match children with
    | part :: _ => .ok part
    | [] => malformed
  else if rule = "number".toList then
    match children with
    | .literal s :: _ =>
      match readFloat s with
      | some x => operate (finite .literal x)
      | none => malformed
    | .number x :: _ => operate (finite .literal x)
    | [] => malformed
  else if rule = "neg".toList then
    match children with
    | .number x :: _ => .ok (.number (-x))
    | _ => malformed
  else
    match Op.ofName? rule with
    | none => .error (.failure (.of (.unknownNode rule)))
    | some op => operatorValue op children

mutual

def Labelled.parts : Labelled → Except LabelledFailure Part
  | .leaf s => .ok (.literal s)
  | .node rule children =>
    match Labelled.partsOf children with
    | .ok values => nodeValue rule values
    | .error e => .error e

def Labelled.partsOf : List Labelled → Except LabelledFailure (List Part)
  | [] => .ok []
  | t :: rest =>
    match t.parts with
    | .error e => .error e
    | .ok p =>
      match Labelled.partsOf rest with
      | .ok ps => .ok (p :: ps)
      | .error e => .error e

end

/-- The value of a labelled tree that belongs to an expression. -/
def Labelled.value (t : Labelled) (expression : Option (List Char)) : Except Failure Float :=
  match t.parts with
  | .ok (.number x) => .ok x
  | .ok (.literal _) => .error (.breakdown .malformedTree)
  | .error (.cause c) => .error (.fault ⟨c, expression⟩)
  | .error (.failure f) => .error f

end Reckoner.Arith
