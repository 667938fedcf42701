import Reckoner.Yaml.Cursor

/-!
Plain scalars. They run over words and over line ends, which fold into a space or, after a blank
line, into the line ends that follow the first. A comment, a key separator, a bracket inside a flow
collection, a document mark or a lesser indentation ends them.
-/
namespace Reckoner.Yaml

/-- The text of a scalar, the place after it, and whether that place is on a later line. -/
structure PlainScalar where
  text : List Char
  cursor : Cursor
  endedLine : Bool

def isFlowMark (c : Char) : Bool := [',', '[', ']', '\x7b', '\x7d'].contains c

def endsPlain (inFlow : Bool) (c : Char) (next : Option Char) : Bool :=
  isGap (some c)
    || (c == ':' && (isGap next || (inFlow && next.any isFlowMark)))
    || (inFlow && (isFlowMark c || c == '?'))

def plainRun (inFlow : Bool) : List Char → List Char
  | [] => []
  | c :: r => if endsPlain inFlow c r.head? then [] else c :: plainRun inFlow r

/-- Skips spaces and line ends after a first line end. The line ends are `none` when a document
mark stops the walk. -/
def plainBreaks : Nat → Cursor → Option (List Char) × Cursor
  | 0, c => (some [], c)
  | fuel + 1, c =>
    if c.atDocumentMark then (none, c)
    else
      let c := c.dropSpaces
      match c.lineBreak? with
      | none => (some [], c)
      | some (b, c) =>
        let (more, c) := plainBreaks fuel c
        (more.map (b :: ·), c)

/-- A line end followed by others, folded into one text. -/
def fold (first : Char) (later : List Char) : List Char :=
  if first ≠ '\n' then first :: later
  else if later.isEmpty then [' ']
  else later

/-- The white space after a word, folded; it is empty when the scalar ends here. -/
def plainSpaces (c : Cursor) : List Char × Cursor × Bool :=
  let (spaces, c) := c.span (· == ' ')
  match c.lineBreak? with
  | none => (spaces, c, false)
  | some (b, c) =>
    match plainBreaks c.steps c with
    | (some later, c) => (fold b later, c, true)
    | (none, c) => ([], c, true)

def plainWords (inFlow : Bool) (indent : Int) : Nat → List Char → PlainScalar → PlainScalar
  | 0, _, s => s
  | fuel + 1, spaces, s =>
    let run := plainRun inFlow s.cursor.rest
    if s.cursor.head? = some '#' || run.isEmpty then s
    else
      let text := s.text ++ spaces ++ run
      let (spaces, cursor, endedLine) := plainSpaces (s.cursor.skip run.length)
      let s : PlainScalar := ⟨text, cursor, endedLine⟩
      if spaces.isEmpty || (!inFlow && (cursor.column : Int) < indent) then s
      else plainWords inFlow indent fuel spaces s

/-- The plain scalar at a place; further lines must reach the column `indent`. -/
def plainScalar (inFlow : Bool) (indent : Int) (c : Cursor) : PlainScalar :=
  plainWords inFlow indent c.steps [] ⟨[], c, false⟩

end Reckoner.Yaml
