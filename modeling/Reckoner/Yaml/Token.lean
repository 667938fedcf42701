import Reckoner.Text.Utf8
import Reckoner.Yaml.Block

/-!
Tokens of YAML, and those that carry a name: directives, anchors, aliases and tags.
-/
namespace Reckoner.Yaml

open Text Number

inductive Directive
  | version (major : Nat)
  | handle (handle : List Char) (expansion : List Char)
  | other

inductive Token
  | directive (d : Directive)
  | documentStart
  | documentEnd
  | blockSequenceStart
  | blockMappingStart
  | blockEnd
  | flowSequenceStart
  | flowSequenceEnd
  | flowMappingStart
  | flowMappingEnd
  | blockEntry
  | flowEntry
  | key
  | value
  | alias (name : List Char)
  | anchor (name : List Char)
  | tag (handle : Option (List Char)) (suffix : List Char)
  | scalar (isPlain : Bool) (text : List Char)
  /-- A place that cannot be read, after which nothing comes. -/
  | broken (b : Breakdown)

/-- The name of an anchor or alias after its indicator. -/
def anchorName (c : Cursor) : Reading (List Char × Cursor) :=
  let (name, c) := c.span isNameChar
  let closes (x : Char) : Bool := ['?', ':', ',', ']', '\x7d', '%', '@', '\x60'].contains x
  if name.isEmpty || !(isGap c.head? || c.head?.any closes) then refuse else .ok (name, c)

def uriMarks : List Char := "-;/?:@&=+$,_.!~*'()[]".toList

def isUriChar (c : Char) : Bool := c.isAlphanum || uriMarks.contains c

/-- A run of escaped bytes. -/
def uriBytes : Nat → Cursor → Reading (Utf8.Bytes × Cursor)
  | 0, c => .ok ([], c)
  | fuel + 1, c =>
    if c.head? = some '%' then
      match (c.ahead? 1).bind hexValue?, (c.ahead? 2).bind hexValue? with
      | some high, some low => do
        let (later, c) ← uriBytes fuel (c.skip 3)
        return ((16 * high + low).toUInt8 :: later, c)
      | _, _ => refuse
    else .ok ([], c)

def uriText : Nat → Cursor → Reading (List Char × Cursor)
  | 0, c => .ok ([], c)
  | fuel + 1, c => do
    let (run, c) := c.span isUriChar
    if c.head? = some '%' then
      let (bytes, c) ← uriBytes c.steps c
      match Utf8.decode? bytes with
      | none => refuse
      | some s =>
        let (later, c) ← uriText fuel c
        return (run ++ s ++ later, c)
    else return (run, c)

/-- A text of tag characters, in which other characters are escaped by their bytes. -/
def uri (c : Cursor) : Reading (List Char × Cursor) :=
  if c.head?.any fun x => isUriChar x || x == '%' then uriText c.steps c else refuse

/-- A tag handle: an exclamation mark, or a name between two. -/
def tagHandle (c : Cursor) : Reading (List Char × Cursor) :=
  if c.head? ≠ some '!' then refuse
  else if c.ahead? 1 = some ' ' then .ok (['!'], c.next)
  else
    let (name, after) := c.next.span isNameChar
    if after.head? = some '!' then .ok ('!' :: name ++ ['!'], after.next) else refuse

/-- The tag at the cursor. -/
def tagToken (c : Cursor) : Reading (Token × Cursor) := do
  let (token, c) ←
    if c.ahead? 1 = some '<' then do
      let (suffix, c) ← uri (c.skip 2)
      if c.head? = some '>' then pure (Token.tag none suffix, c.next) else refuse
    else if isGap (c.ahead? 1) then pure (Token.tag none ['!'], c.next)
    else do
      let body := (c.rest.drop 1).takeWhile fun x => !isSpaceOrEnd (some x)
      let (handle, c) ← if body.contains '!' then tagHandle c else pure (['!'], c.next)
      let (suffix, c) ← uri c
      pure (Token.tag (some handle) suffix, c)
  if isSpaceOrEnd c.head? then return (token, c) else refuse

def versionNumber (c : Cursor) : Reading (Nat × Cursor) :=
  let (digits, c) := c.span isAsciiDigit
  if digits.isEmpty then refuse else .ok (digitsValue digits, c)

def versionDirective (c : Cursor) : Reading (Directive × Cursor) := do
  let (major, c) ← versionNumber c.dropSpaces
  if c.head? ≠ some '.' then refuse
  else
    let (_, c) ← versionNumber c.next
    if isSpaceOrEnd c.head? then return (.version major, c) else refuse

def handleDirective (c : Cursor) : Reading (Directive × Cursor) := do
  let (handle, c) ← tagHandle c.dropSpaces
  if c.head? ≠ some ' ' then refuse
  else
    let (expansion, c) ← uri c.dropSpaces
    if isSpaceOrEnd c.head? then return (.handle handle expansion, c) else refuse

/-- The directive at the cursor, which takes up its line. -/
def directiveToken (c : Cursor) : Reading (Token × Cursor) := do
  let (name, c) := c.next.span isNameChar
  if name.isEmpty || !isSpaceOrEnd c.head? then refuse
  else
    let (d, c) ←
      if name = "YAML".toList then versionDirective c
      else if name = "TAG".toList then handleDirective c
      else pure (Directive.other, (c.span (!isBreak ·)).2)
    let c ← c.dropRestOfLine
    return (.directive d, c)

end Reckoner.Yaml
