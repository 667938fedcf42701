import Reckoner.Fault
import Reckoner.Text.Blank
import Reckoner.Text.Word

/-!
Function calls in a text. A call starts with a name that follows neither a word character nor a
point, then white space, then a parenthesis. The calls whose arguments hold no further call start
are the ones that can be evaluated next.
-/
namespace Reckoner.Formula

open Text

/-- A call start: the name, the position of its first character, the position of its parenthesis,
and the text from the parenthesis on. -/
structure CallStart where
  name : List Char
  start : Nat
  paren : Nat
  rest : List Char

/-- The call start at the beginning of a text, if there is one. -/
def callStartAt? (position : Nat) (s : List Char) : Option CallStart :=
  let name := s.takeWhile isWord
  let gap := (s.dropWhile isWord).takeWhile isBlank
  match (s.dropWhile isWord).dropWhile isBlank with
  | '(' :: rest => some ⟨name, position, position + name.length + gap.length, '(' :: rest⟩
  | _ => none

/-- Whether a name may start after a character. -/
def allowsName : Option Char → Bool
  | none => true
  | some c => !(isWord c || c == '.')

/-- The call starts of a text, whose first character stands at `position` after `last`. -/
def callStartsFrom (last : Option Char) (position : Nat) : List Char → List CallStart
  | [] => []
  | c :: r =>
    let later := callStartsFrom (some c) (position + 1) r
    if allowsName last && isNameStart c then
      match callStartAt? position (c :: r) with
      | some call => call :: later
      | none => later
    else later

def callStarts (s : List Char) : List CallStart := callStartsFrom none 0 s

/-- The distance to the parenthesis at which the depth returns to zero, where the parentheses
before have opened to `depth`. -/
def closingFrom (depth : Int) (distance : Nat) : List Char → Option Nat
  | [] => none
  | c :: r =>
    if c = '(' then closingFrom (depth + 1) (distance + 1) r
    else if c = ')' then
      if depth = 1 then some distance else closingFrom (depth - 1) (distance + 1) r
    else closingFrom depth (distance + 1) r

/-- The position of the parenthesis that closes the first one at or after `start`. -/
def closingPosition (s : List Char) (start : Nat) : Option Nat :=
  (closingFrom 0 0 (s.drop start)).map (start + ·)

/-- The same for a start that may be negative. It then counts back from the end of the text, which
is read once more from its beginning after the end. -/
def closingPositionFrom (s : List Char) (start : Int) : Except Breakdown (Option Int) :=
  if 0 ≤ start then .ok ((closingPosition s start.toNat).map Int.ofNat)
  else if start + s.length < 0 then .error .outsideText
  else .ok ((closingFrom 0 0 (s.drop (start + s.length).toNat ++ s)).map (start + ·))

/-- A call from `start` up to `stop`, with the text between its parentheses. -/
structure Call where
  name : List Char
  start : Nat
  stop : Nat
  arguments : List Char

/-- The calls among call starts of `s` whose arguments hold no call start. -/
def innermostAmong (s : List Char) : List CallStart → Except Fault (List Call)
  | [] => .ok []
  | call :: later =>
    match closingFrom 0 0 call.rest with
    | none => .error ⟨.parse (.unclosedCall call.name) call.paren, some s⟩
    | some distance => do
      let arguments := (call.rest.drop 1).take (distance - 1)
      let calls ← innermostAmong s later
      if (callStarts arguments).isEmpty then
        return ⟨call.name, call.start, call.paren + distance + 1, arguments⟩ :: calls
      else return calls

def innermostCalls (s : List Char) : Except Fault (List Call) := innermostAmong s (callStarts s)

/-- The pieces of a text between the commas outside parentheses. -/
def piecesFrom (depth : Int) : List Char → List (List Char)
  | [] => [[]]
  | c :: r =>
    if c = ',' ∧ depth = 0 then [] :: piecesFrom 0 r
    else
      let depth := if c = '(' then depth + 1 else if c = ')' then depth - 1 else depth
      match piecesFrom depth r with
      | piece :: rest => (c :: piece) :: rest
      | [] => [[c]]

/-- The arguments in a text; a text of white space holds none. -/
def splitArguments (s : List Char) : List (List Char) :=
  if s.all isBlank then [] else (piecesFrom 0 s).map trim

end Reckoner.Formula
