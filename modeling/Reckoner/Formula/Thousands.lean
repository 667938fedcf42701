import Reckoner.Text.Word

/-!
Thousands separators. A run of digits and commas is a grouped number when it has one to three
digits and then groups of a comma and three digits. Its commas are removed, unless it starts inside
the parentheses of a function call, where a comma separates arguments.
-/
namespace Reckoner.Formula

open Text

def isDigitOrComma (c : Char) : Bool := isDigit c || c == ','

/-- What the text before a place says about it: for each open parenthesis, the last one first,
whether it belongs to a call; the first character of the word before, which spaces may follow;
and the character right before. -/
structure Surroundings where
  parens : List Bool
  word : Option Char
  spaced : Bool
  last : Option Char

namespace Surroundings

def start : Surroundings := ⟨[], none, false, none⟩

def insideCall (s : Surroundings) : Bool := s.parens.any id

/-- Whether a parenthesis here would open the arguments of a call: the word before starts like a
name and not like a number. -/
def followsName (s : Surroundings) : Bool :=
  match s.word with
  | some c => isAlphabetic c || c == '_'
  | none => false

def advance (s : Surroundings) (c : Char) : Surroundings :=
  if isWord c then
    { s with
      word := if s.spaced || s.word.isNone then some c else s.word
      spaced := false
      last := some c }
  else if c = ' ' then { s with spaced := true, last := some c }
  else
    let parens :=
      if c = '(' then s.followsName :: s.parens
      else if c = ')' then s.parens.tail
      else s.parens
    ⟨parens, none, false, some c⟩

/-- Whether a run of digits and commas that starts here stands by itself. -/
def allowsNumber (s : Surroundings) : Bool :=
  match s.last with
  | some c => !(isDigitOrComma c || c == '.')
  | none => true

end Surroundings

/-- Groups of a comma and three digits. -/
def isGroups : List Char → Bool
  | [] => true
  | c :: x :: y :: z :: rest => c == ',' && isDigit x && isDigit y && isDigit z && isGroups rest
  | _ => false

/-- One to three digits and then at least one group. -/
def isGrouped (run : List Char) : Bool :=
  let head := run.takeWhile isDigit
  let groups := run.dropWhile isDigit
  1 ≤ head.length && head.length ≤ 3 && !groups.isEmpty && isGroups groups

/-- Scans a text; `within` says whether the place lies in a grouped number. -/
def ungroupFrom (s : Surroundings) (within : Bool) : List Char → List Char
  | [] => []
  | c :: r =>
    let grouped :=
      if isDigitOrComma c then
        within || (s.allowsNumber && !s.insideCall
          && isGrouped ((c :: r).takeWhile isDigitOrComma))
      else false
    let rest := ungroupFrom (s.advance c) grouped r
    if grouped && c == ',' then rest else c :: rest

def ungroup (s : List Char) : List Char := ungroupFrom .start false s

end Reckoner.Formula
