import Reckoner.Arith.Tree
import Reckoner.Text.Numeric

/-!
Tokens of arithmetic: the longest decimal literals, operators and parentheses. Spaces, tabs and
line ends between tokens are skipped; any other character is an illegal token.
-/
namespace Reckoner.Arith

open Text

inductive Token
  | number (literal : List Char)
  | operator (op : Op)
  | opening
  | closing
  | illegal (c : Char)

def Token.text : Token → List Char
  | number literal => literal
  | operator op => [op.symbol]
  | opening => ['(']
  | closing => [')']
  | illegal c => [c]

/-- White space between tokens. -/
def isGap (c : Char) : Bool :=
  c == ' ' || c == '\t' || c == '\x0c' || c == '\r' || c == '\n'

/-- The longest literal at the start of a text: digits with an optional point, or a point with
digits after it. -/
def takeLiteral (s : List Char) : List Char :=
  let whole := s.takeWhile isDigit
  match s.dropWhile isDigit with
  | '.' :: r =>
    let fraction := r.takeWhile isDigit
    if whole.isEmpty && fraction.isEmpty then [] else whole ++ '.' :: fraction
  | _ => whole

/-- The token at the start of a text that starts with `c`. -/
def tokenAt (c : Char) (s : List Char) : Token :=
  match takeLiteral s with
  | d :: literal => .number (d :: literal)
  | [] =>
    if c = '(' then .opening
    else if c = ')' then .closing
    else match Op.ofSymbol? c with
      | some op => .operator op
      | none => .illegal c

/-- The tokens of a text with their positions, counted from `position`. -/
def tokens (position : Nat) : List Char → List (Nat × Token)
  | [] => []
  | c :: r =>
    if isGap c then tokens (position + 1) r
    else
      let token := tokenAt c (c :: r)
      let size := token.text.length - 1
      (position, token) :: tokens (position + 1 + size) (r.drop size)
termination_by s => s.length
decreasing_by
  · simp
  · simp only [List.length_drop, List.length_cons]
    omega

end Reckoner.Arith
