import Reckoner.Text.Alphabetic
import Reckoner.Text.Numeric

/-!
Words and identifiers. A word character is a letter, a numeric character or an underscore. An
identifier starts with an ASCII letter or an underscore and goes on with word characters.
-/
namespace Reckoner.Text

def isWord (c : Char) : Bool := isAlphabetic c || isNumeric c || c == '_'

/-- The characters that may start an identifier. -/
def isNameStart (c : Char) : Bool := isAsciiLetter c || c == '_'

def isIdentifier : List Char → Bool
  | [] => false
  | c :: r => isNameStart c && r.all isWord

/-- The number of ASCII letters and underscores, which bounds the names a text can hold. -/
def letterCount (s : List Char) : Nat := s.countP isNameStart

end Reckoner.Text
