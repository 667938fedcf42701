import Reckoner.Arith.Tree
import Reckoner.Formula.Thousands
import Reckoner.Text.Blank

/-!
The canonical form of an expression text. Markup and currency signs are dropped, typographic signs
become operators, one leading equals sign and the thousands separators go, names and operators are
set apart by one space, and white space is collapsed. Whatever makes no sense is left in place.
-/
namespace Reckoner.Formula

open Text Arith

/-- Drops each span from a `<` to the next `>`; `inside` says whether such a span is open. -/
def dropTagsFrom (inside : Bool) : List Char → List Char
  | [] => []
  | c :: r =>
    if inside then dropTagsFrom (c != '>') r
    else if c == '<' && r.contains '>' then dropTagsFrom true r
    else c :: dropTagsFrom false r

def dropTags (s : List Char) : List Char := dropTagsFrom false s

def dropEquals : List Char → List Char
  | '=' :: r => r
  | s => s

/-- The operator that a typographic sign stands for. -/
def operatorOf (c : Char) : Char :=
  if c = '×' then '*' else if c = '÷' then '/' else if c = '−' then '-' else c

def currencySigns : List Char := ['$', '€', '£', '¥', '₹', '₩']

def dropCurrency (s : List Char) : List Char := s.filter fun c => !currencySigns.contains c

def startsWith (p : Char → Bool) : List Char → Bool
  | [] => false
  | c :: _ => p c

/-- Puts exactly one space between a name and an operator after it. The flag says whether a name
ends here; white space after it that leads up to an operator is dropped. -/
def spaceAfterNames (named : Bool) : List Char → List Char
  | [] => []
  | c :: r =>
    if isWord c then c :: spaceAfterNames (named || isNameStart c) r
    else if named && isOperator c then ' ' :: c :: spaceAfterNames false r
    else if named && isBlank c && startsWith isOperator (r.dropWhile isBlank) then
      spaceAfterNames true r
    else c :: spaceAfterNames false r

/-- The characters that start a name or a line reference. -/
def startsOperand (c : Char) : Bool := isNameStart c || c == '@'

/-- Puts exactly one space between an operator and a name or line reference after it. The flag says
whether white space is to be dropped. -/
def spaceBeforeNames (spaced : Bool) : List Char → List Char
  | [] => []
  | c :: r =>
    if spaced && isBlank c then spaceBeforeNames true r
    else if isOperator c && startsWith startsOperand (r.dropWhile isBlank) then
      c :: ' ' :: spaceBeforeNames true r
    else c :: spaceBeforeNames false r

/-- Turns each run of white space into one space. -/
def collapseBlanks (after : Bool) : List Char → List Char
  | [] => []
  | c :: r =>
    if isBlank c then
      if after then collapseBlanks true r else ' ' :: collapseBlanks true r
    else c :: collapseBlanks false r

def canonical (s : List Char) : List Char :=
  let bare := dropCurrency ((dropEquals (trim (dropTags s))).map operatorOf)
  trim (collapseBlanks false (spaceBeforeNames false (spaceAfterNames false (ungroup bare))))

end Reckoner.Formula
