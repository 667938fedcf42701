/-!
Cutting texts at separators and line ends.
-/
namespace Reckoner.Text

/-- The pieces between the characters that satisfy `p`; there is one piece more than such
characters. -/
def splitAt (p : Char → Bool) : List Char → List (List Char)
  | [] => [[]]
  | c :: r =>
    if p c then [] :: splitAt p r
    else match splitAt p r with
      | piece :: rest => (c :: piece) :: rest
      | [] => [[c]]

/-- Turns the line ends `\r\n` and `\r` into `\n`. -/
def unifyLineEnds : List Char → List Char
  | [] => []
  | '\r' :: '\n' :: r => '\n' :: unifyLineEnds r
  | '\r' :: r => '\n' :: unifyLineEnds r
  | c :: r => c :: unifyLineEnds r

def lineEndCodes : List Nat := [10, 11, 12, 13, 28, 29, 30, 133, 8232, 8233]

/-- The lines of a text that may use any line or paragraph separator; a line end at the very end
starts no further line. -/
def lines : List Char → List (List Char)
  | [] => []
  | '\r' :: '\n' :: r => [] :: lines r
  | c :: r =>
    if lineEndCodes.contains c.toNat then [] :: lines r
    else match lines r with
      | line :: rest => (c :: line) :: rest
      | [] => [[c]]

end Reckoner.Text
