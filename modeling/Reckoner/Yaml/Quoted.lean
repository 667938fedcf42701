import Reckoner.Yaml.Plain

/-!
Scalars between quotes. In single quotes only the quote is special and is written twice; in double
quotes a backslash starts an escape. Line ends fold as in plain scalars.
-/
namespace Reckoner.Yaml

open Text Number

/-- Skips blank lines after a line end; the line ends passed. -/
def quotedBreaks : Nat → Cursor → Reading (List Char × Cursor)
  | 0, c => .ok ([], c)
  | fuel + 1, c =>
    if c.atDocumentMark then refuse
    else
      let (_, c) := c.span isSpaceOrTab
      match c.lineBreak? with
      | none => .ok ([], c)
      | some (b, c) => do
        let (later, c) ← quotedBreaks fuel c
        return (b :: later, c)

/-- The white space at a place, folded when it holds a line end. -/
def quotedSpaces (c : Cursor) : Reading (List Char × Cursor) :=
  let (spaces, c) := c.span isSpaceOrTab
  match c.lineBreak? with
  | none => .ok (spaces, c)
  | some (b, c) => do
    let (later, c) ← quotedBreaks c.steps c
    return (fold b later, c)

def namedEscapes : List (Char × Char) := [
  ('0', '\x00'), ('a', '\x07'), ('b', '\x08'), ('t', '\t'), ('\t', '\t'), ('n', '\n'),
  ('v', '\x0b'), ('f', '\x0c'), ('r', '\r'), ('e', '\x1b'), (' ', ' '), ('\x22', '\x22'),
  ('\\', '\\'), ('/', '/'), ('N', '\x85'), ('_', '\xa0'), ('L', '\u2028'), ('P', '\u2029')]

/-- The number of digits of an escape by code point. -/
def escapeWidth? (c : Char) : Option Nat :=
  if c = 'x' then some 2 else if c = 'u' then some 4 else if c = 'U' then some 8 else none

def hexNumber (digits : List Nat) : Nat := digits.foldl (fun n d => 16 * n + d) 0

def codePoint (code : Nat) : Reading Char :=
  if code < 0x110000 then
    .ok (if (0xD800 ≤ code ∧ code < 0xE000) then '\uFFFD' else Char.ofNat code)
  else if code < twoTo 31 then broken .noCharacter
  else broken .characterTooLarge

/-- The text of the escape after a backslash. -/
def escape (c : Cursor) : Reading (List Char × Cursor) :=
  match c.head? with
  | none => refuse
  | some x =>
    match Assoc.get? namedEscapes x with
    | some y => .ok ([y], c.next)
    | none =>
      match escapeWidth? x with
      | some width =>
        let digits := (c.next.rest.take width).filterMap hexValue?
        if digits.length = width then do
          let y ← codePoint (hexNumber digits)
          return ([y], c.next.skip width)
        else refuse
      | none =>
        match c.lineBreak? with
        | some (_, c) => quotedBreaks c.steps c
        | none => refuse

/-- The text up to the closing quote. -/
def quotedText (quote : Char) : Nat → Cursor → Reading (List Char × Cursor)
  | 0, _ => refuse
  | fuel + 1, c =>
    match c.head? with
    | none => refuse
    | some x => do
      if x = quote then
        if quote = '\x27' && c.ahead? 1 = some quote then
          let (text, c) ← quotedText quote fuel (c.skip 2)
          return (x :: text, c)
        else return ([], c.next)
      else
        let (part, c) ←
          if isGap (some x) then quotedSpaces c
          else if x = '\\' && quote = '\x22' then escape c.next
          else pure ([x], c.next)
        let (text, c) ← quotedText quote fuel c
        return (part ++ text, c)

/-- The scalar whose opening quote is at the cursor. -/
def quotedScalar (quote : Char) (c : Cursor) : Reading (List Char × Cursor) :=
  quotedText quote c.steps c.next

end Reckoner.Yaml
