import Reckoner.Formula.Canonical
import Reckoner.Text.Lines

/-!
The lines of a document and what each asks for. A line assigns a name, gives a labeled calculation,
is a plain expression, or asks for nothing. The forms are tried in this order: a name, an equals
sign and an expression; a label, a colon or equals sign and an expression, where a label before an
equals sign is no name; an equals sign and an expression; an expression and an equals sign; and a
text made of expression characters that has something to calculate.
-/
namespace Reckoner.Document

open Text Arith Formula

inductive Form
  | blank
  | assignment (name : List Char) (expression : List Char)
  | labeled (label : List Char) (expression : List Char)
  | plain (expression : List Char)
deriving DecidableEq

namespace Form

def kind : Form → List Char
  | blank => "blank".toList
  | assignment _ _ => "variable".toList
  | labeled _ _ => "labeled".toList
  | plain _ => "expression".toList

def expression : Form → List Char
  | blank => []
  | assignment _ e => e
  | labeled _ e => e
  | plain e => e

def name? : Form → Option (List Char)
  | assignment n _ => some n
  | _ => none

def label? : Form → Option (List Char)
  | labeled l _ => some l
  | _ => none

end Form

/-- The rest of a line after a separator, if it is not blank and goes on to the end. -/
def restOfLine (s : List Char) : Option (List Char) :=
  let rest := trimLeft s
  if rest.isEmpty || rest.contains '\n' then none else some rest

def assignment? (s : List Char) : Option Form :=
  let name := s.takeWhile isWord
  match trimLeft (s.dropWhile isWord) with
  | '=' :: r => if isIdentifier name then (restOfLine r).map (.assignment name) else none
  | _ => none

def isSeparator (c : Char) : Bool := c == ':' || c == '='

def labeled? (s : List Char) : Option Form :=
  let label := s.takeWhile (!isSeparator ·)
  match s.dropWhile (!isSeparator ·) with
  | c :: r =>
    if label.isEmpty || (c == '=' && isIdentifier (trimRight label)) then none
    else (restOfLine r).map (.labeled (trimRight label))
  | [] => none

def leadingEquals? (s : List Char) : Option Form :=
  match s with
  | '=' :: r => some (if (trim r).isEmpty then .blank else .plain (trim r))
  | _ => none

def trailingEquals? (s : List Char) : Option Form :=
  let expression := s.takeWhile (· != '=')
  match s.dropWhile (· != '=') with
  | '=' :: r =>
    if expression.isEmpty || !r.all isBlank then none else some (.plain (trimRight expression))
  | _ => none

def typographicSigns : List Char := ['×', '÷', '−']

/-- The characters that expressions are made of. -/
def isExpressionChar (c : Char) : Bool :=
  isWord c || isBlank c || isOperator c || ['.', ',', '@', '(', ')'].contains c
    || typographicSigns.contains c || currencySigns.contains c

def isCalculation (c : Char) : Bool :=
  isDigit c || c == '@' || isOperator c || typographicSigns.contains c

/-- Whether a text has a digit, a line reference, an operator or a call. -/
def hasCalculation : List Char → Bool
  | [] => false
  | c :: r =>
    isCalculation c
      || (isNameStart c && startsWith (· == '(') ((r.dropWhile isWord).dropWhile isBlank))
      || hasCalculation r

/-- The form of a line, of which markup and outer white space are dropped. -/
def classify (raw : List Char) : Form :=
  let s := trim (dropTags raw)
  if s.isEmpty then .blank
  else match assignment? s with
    | some form => form
    | none =>
      match labeled? s with
      | some form => form
      | none =>
        match leadingEquals? s with
        | some form => form
        | none =>
          match trailingEquals? s with
          | some form => form
          | none =>
            if s.all isExpressionChar && hasCalculation s then .plain s else .blank

/-- A line with its number, counted from one. -/
structure Line where
  index : Nat
  raw : List Char
  form : Form

def dropCarriageReturns (s : List Char) : List Char :=
  (s.reverse.dropWhile (· == '\r')).reverse

/-- The lines of a text without their line ends. -/
def splitLines (s : List Char) : List (List Char) :=
  (splitAt (· == '\n') s).map dropCarriageReturns

def number (index : Nat) : List (List Char) → List Line
  | [] => []
  | raw :: rest => ⟨index, raw, classify raw⟩ :: number (index + 1) rest

def ofText (s : List Char) : List Line := number 1 (splitLines s)

end Reckoner.Document
