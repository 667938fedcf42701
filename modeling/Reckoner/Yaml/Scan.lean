import Reckoner.Yaml.Token

/-!
Cutting a YAML text into tokens. Outside flow collections the column of a token opens and closes
block collections. A node may turn out to be a mapping key when a colon follows on its line; until
then it is a candidate, and its key token is put before it when the colon comes. A candidate that
stands where only a key can stand must become one.
-/
namespace Reckoner.Yaml

/-- A token that may start a key, with the number of tokens before it. -/
structure Candidate where
  position : Nat
  required : Bool
  index : Nat
  line : Nat
  column : Nat

structure Scan where
  cursor : Cursor
  tokens : List Token
  /-- How many flow collections are open. -/
  depth : Nat
  /-- The column of the innermost block collection, or -1. -/
  indent : Int
  outer : List Int
  mayStartKey : Bool
  /-- The candidates by the depth at which they stand. -/
  candidates : Assoc Nat Candidate

namespace Scan

def start (s : List Char) : Scan := ⟨.start s, [], 0, -1, [], true, []⟩

def inFlow (s : Scan) : Bool := s.depth != 0

def emit (s : Scan) (t : Token) (c : Cursor) : Scan :=
  { s with tokens := s.tokens ++ [t], cursor := c }

def keyDistance : Nat := 1024

def isStale (s : Scan) (k : Candidate) : Bool :=
  k.line != s.cursor.line || keyDistance < s.cursor.index - k.index

/-- Drops candidates whose line is over or that are too far back. -/
def dropStale (s : Scan) : Reading Scan :=
  if s.candidates.any fun e => s.isStale e.2 && e.2.required then refuse
  else .ok { s with candidates := s.candidates.filter fun e => !s.isStale e.2 }

/-- Drops the candidate of the current depth. -/
def dropCandidate (s : Scan) : Reading Scan :=
  match Assoc.get? s.candidates s.depth with
  | none => .ok s
  | some k =>
    if k.required then refuse else .ok { s with candidates := Assoc.erase s.candidates s.depth }

/-- Makes the next token a candidate where a key may start. -/
def saveCandidate (s : Scan) : Reading Scan :=
  if s.mayStartKey then do
    let s ← s.dropCandidate
    let c := s.cursor
    let k : Candidate :=
      ⟨s.tokens.length, !s.inFlow && s.indent == c.column, c.index, c.line, c.column⟩
    return { s with candidates := Assoc.set s.candidates s.depth k }
  else .ok s

/-- Closes collections that are indented beyond a column. -/
def unwindFrom (column indent : Int) : List Int → List Token × Int × List Int
  | [] => ([], indent, [])
  | i :: outer =>
    if column < indent then
      let (ends, indent, outer) := unwindFrom column i outer
      (.blockEnd :: ends, indent, outer)
    else ([], indent, i :: outer)

def unwind (s : Scan) (column : Int) : Scan :=
  if s.inFlow then s
  else
    let (ends, indent, outer) := unwindFrom column s.indent s.outer
    { s with tokens := s.tokens ++ ends, indent, outer }

/-- Opens a block collection at a column, if it is indented beyond the innermost; its first token
is put at a position. -/
def enter (s : Scan) (column : Nat) (position : Nat) (t : Token) : Scan :=
  if s.indent < column then
    { s with
      indent := column
      outer := s.indent :: s.outer
      tokens := s.tokens.take position ++ t :: s.tokens.drop position }
  else s

def enterHere (s : Scan) (t : Token) : Scan := s.enter s.cursor.column s.tokens.length t

/-- Skips white space, comments and line ends. Outside flow collections a key may start on a new
line. -/
def dropBlank : Nat → Scan → Scan
  | 0, s => s
  | fuel + 1, s =>
    let c := s.cursor.dropSpaces.dropComment
    match c.lineBreak? with
    | none => { s with cursor := c }
    | some (_, c) =>
      dropBlank fuel { s with cursor := c, mayStartKey := s.mayStartKey || !s.inFlow }

def dropByteOrderMark (s : Scan) : Scan :=
  if s.cursor.index = 0 && s.cursor.head? = some byteOrderMark then
    { s with cursor := s.cursor.next }
  else s

/-- What a token at the margin leaves: everything is closed and no key may start. -/
def closeAll (s : Scan) : Reading Scan := do
  let s ← (s.unwind (-1)).dropCandidate
  return { s with mayStartKey := false }

def documentMark (s : Scan) (t : Token) : Reading Scan := do
  let s ← s.closeAll
  return s.emit t (s.cursor.skip 3)

def openFlow (s : Scan) (t : Token) : Reading Scan := do
  let s ← s.saveCandidate
  return { s.emit t s.cursor.next with depth := s.depth + 1, mayStartKey := true }

def closeFlow (s : Scan) (t : Token) : Reading Scan := do
  let s ← s.dropCandidate
  if s.depth = 0 then refuse
  else return { s.emit t s.cursor.next with depth := s.depth - 1, mayStartKey := false }

def flowEntry (s : Scan) : Reading Scan := do
  let s ← { s with mayStartKey := true }.dropCandidate
  return s.emit .flowEntry s.cursor.next

def blockEntry (s : Scan) : Reading Scan := do
  if !s.inFlow && !s.mayStartKey then refuse
  else
    let s := if s.inFlow then s else s.enterHere .blockSequenceStart
    let s ← { s with mayStartKey := true }.dropCandidate
    return s.emit .blockEntry s.cursor.next

def explicitKey (s : Scan) : Reading Scan := do
  if !s.inFlow && !s.mayStartKey then refuse
  else
    let s := if s.inFlow then s else s.enterHere .blockMappingStart
    let s ← { s with mayStartKey := !s.inFlow }.dropCandidate
    return s.emit .key s.cursor.next

/-- A colon makes the candidate of its depth a key; without one it belongs to an explicit key. -/
def value (s : Scan) : Reading Scan := do
  match Assoc.get? s.candidates s.depth with
  | some k =>
    let s := { s with
      candidates := Assoc.erase s.candidates s.depth
      tokens := s.tokens.take k.position ++ Token.key :: s.tokens.drop k.position
      mayStartKey := false }
    let s := if s.inFlow then s else s.enter k.column k.position .blockMappingStart
    return s.emit .value s.cursor.next
  | none =>
    if !s.inFlow && !s.mayStartKey then refuse
    else
      let s := if s.inFlow then s else s.enterHere .blockMappingStart
      let s ← { s with mayStartKey := !s.inFlow }.dropCandidate
      return s.emit .value s.cursor.next

/-- A token that may itself start a key, after which none may start. -/
def keyable (s : Scan) (read : Cursor → Reading (Token × Cursor)) : Reading Scan := do
  let s ← s.saveCandidate
  let (t, c) ← read s.cursor
  return { s.emit t c with mayStartKey := false }

def block (s : Scan) (folded : Bool) : Reading Scan := do
  let s ← { s with mayStartKey := true }.dropCandidate
  let (text, c) ← blockScalar folded s.indent s.cursor
  return s.emit (.scalar false text) c

def plain (s : Scan) : Reading Scan := do
  let s ← s.saveCandidate
  let p := plainScalar s.inFlow (s.indent + 1) s.cursor
  return { s.emit (.scalar true p.text) p.cursor with mayStartKey := p.endedLine }

def indicators : List Char := "-?:,[]\x7b\x7d#&*!|>'\"%@\x60".toList

/-- Whether a plain scalar can start with a character before another. -/
def startsPlain (inFlow : Bool) (x : Char) (next : Option Char) : Bool :=
  !(isGap (some x) || indicators.contains x)
    || (!isGap next && (x == '-' || (!inFlow && (x == '?' || x == ':'))))

def named (f : List Char → Token) (c : Cursor) : Reading (Token × Cursor) := do
  let (name, c) ← anchorName c.next
  return (f name, c)

def quotedToken (quote : Char) (c : Cursor) : Reading (Token × Cursor) := do
  let (text, c) ← quotedScalar quote c
  return (.scalar false text, c)

/-- The token that starts with the character `x` at the cursor. -/
def token (s : Scan) (x : Char) : Reading Scan :=
  let c := s.cursor
  let next := c.ahead? 1
  let atMargin := c.column = 0
  if x = '%' && atMargin then do
    let s ← s.closeAll
    let (t, c) ← directiveToken s.cursor
    return s.emit t c
  else if x = '-' && atMargin && c.atDocumentMark then s.documentMark .documentStart
  else if x = '.' && atMargin && c.atDocumentMark then s.documentMark .documentEnd
  else if x = '[' then s.openFlow .flowSequenceStart
  else if x = '\x7b' then s.openFlow .flowMappingStart
  else if x = ']' then s.closeFlow .flowSequenceEnd
  else if x = '\x7d' then s.closeFlow .flowMappingEnd
  else if x = ',' then s.flowEntry
  else if x = '-' && isGap next then s.blockEntry
  else if x = '?' && (s.inFlow || isGap next) then s.explicitKey
  else if x = ':' && (s.inFlow || isGap next) then s.value
  else if x = '*' then s.keyable (named .alias)
  else if x = '&' then s.keyable (named .anchor)
  else if x = '!' then s.keyable tagToken
  else if (x = '|' || x = '>') && !s.inFlow then s.block (x = '>')
  else if x = '\x27' || x = '\x22' then s.keyable (quotedToken x)
  else if startsPlain s.inFlow x next then s.plain
  else refuse

/-- Scans the next token; the flag says whether the text is at its end. -/
def advance (s : Scan) : Reading (Scan × Bool) := do
  let s ← (s.dropBlank s.cursor.steps).dropStale
  let s := s.unwind s.cursor.column
  match s.cursor.head? with
  | none =>
    let s ← s.closeAll
    return (s, true)
  | some x =>
    let s ← s.token x
    return (s, false)

/-- The tokens before the first candidate, for which it is settled what they are. -/
def settled (s : Scan) : List Token :=
  let pending := s.candidates.filter fun e => !s.isStale e.2
  match (pending.map fun e => e.2.position).min? with
  | some position => s.tokens.take position
  | none => s.tokens

/-- Scans tokens up to the end of the text, or to a place that cannot be read. -/
def run : Nat → Scan → Reading (List Token)
  | 0, _ => refuse
  | fuel + 1, s =>
    match s.advance with
    | .ok (s, true) => .ok s.tokens
    | .ok (s, false) => run fuel s
    | .error (.breakdown b) => .ok (s.settled ++ [.broken b])
    | .error .malformed => refuse

end Scan

/-- The tokens of a text. -/
def tokens (s : List Char) : Reading (List Token) :=
  if s.all isAllowed then
    let scan := (Scan.start s).dropByteOrderMark
    scan.run (s.length + 1)
  else refuse

end Reckoner.Yaml
