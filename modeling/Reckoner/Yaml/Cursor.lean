import Reckoner.Fault

/-!
A place in a YAML text: what is left of it, and the index, line and column reached. The line ends of
the text are single characters; two of them are kept in scalars as they are, the others count as a
line feed.
-/
namespace Reckoner.Yaml

/-- Why a text gives no data: it is not well formed, or a value in it cannot be built. -/
inductive Trouble
  | malformed
  | breakdown (b : Breakdown)

abbrev Reading (α : Type) := Except Trouble α

def refuse {α : Type} : Reading α := .error .malformed

def broken {α : Type} (b : Breakdown) : Reading α := .error (.breakdown b)

def isBreak (c : Char) : Bool := ['\n', '\x85', '\u2028', '\u2029'].contains c

def isSpaceOrTab (c : Char) : Bool := c == ' ' || c == '\t'

/-- Whether a character, or the end of the text, ends a line or stands between words. -/
def isGap : Option Char → Bool
  | none => true
  | some c => isSpaceOrTab c || isBreak c

def isSpaceOrEnd : Option Char → Bool
  | none => true
  | some c => c == ' ' || isBreak c

def isEndOfLine : Option Char → Bool
  | none => true
  | some c => isBreak c

/-- The characters that a YAML text may contain. -/
def isAllowed (c : Char) : Bool :=
  let n := c.toNat
  n == 9 || n == 10 || n == 13 || (32 ≤ n && n ≤ 126) || n == 133 || (160 ≤ n && n ≤ 0xFFFD)
    || 0x10000 ≤ n

def byteOrderMark : Char := '\uFEFF'

structure Cursor where
  rest : List Char
  index : Nat
  line : Nat
  column : Nat

namespace Cursor

def start (s : List Char) : Cursor := ⟨s, 0, 0, 0⟩

def head? (c : Cursor) : Option Char := c.rest.head?

/-- The character `n` places further on. -/
def ahead? (c : Cursor) (n : Nat) : Option Char := c.rest[n]?

def next (c : Cursor) : Cursor :=
  match c.rest with
  | [] => c
  | x :: r =>
    if isBreak x then ⟨r, c.index + 1, c.line + 1, 0⟩
    else if x = byteOrderMark then ⟨r, c.index + 1, c.line, c.column⟩
    else ⟨r, c.index + 1, c.line, c.column + 1⟩

def skip (c : Cursor) : Nat → Cursor
  | 0 => c
  | n + 1 => c.next.skip n

/-- The longest run of characters that satisfy `p`, and the place after it. -/
def span (c : Cursor) (p : Char → Bool) : List Char × Cursor :=
  let run := c.rest.takeWhile p
  (run, c.skip run.length)

def dropSpaces (c : Cursor) : Cursor := (c.span (· == ' ')).2

/-- Skips a comment up to the end of its line. -/
def dropComment (c : Cursor) : Cursor :=
  if c.head? = some '#' then (c.span (!isBreak ·)).2 else c

/-- The line end at the cursor, as it counts in scalars. -/
def lineBreak? (c : Cursor) : Option (Char × Cursor) :=
  match c.head? with
  | some x =>
    if isBreak x then some (if x = '\x85' then '\n' else x, c.next) else none
  | none => none

/-- Skips a line end if there is one. -/
def dropBreak (c : Cursor) : Cursor :=
  match c.lineBreak? with
  | some (_, c) => c
  | none => c

def startsWith (c : Cursor) (s : List Char) : Bool := c.rest.take s.length == s

/-- Whether three dashes or three points that stand alone come next. -/
def atDocumentMark (c : Cursor) : Bool :=
  (c.startsWith ['-', '-', '-'] || c.startsWith ['.', '.', '.']) && isGap (c.ahead? 3)

/-- Skips spaces and a comment, after which the line must end, and the line end. -/
def dropRestOfLine (c : Cursor) : Reading Cursor :=
  let c := c.dropSpaces.dropComment
  if isEndOfLine c.head? then .ok c.dropBreak else refuse

/-- An upper bound on the steps that any walk to the end of the text takes. -/
def steps (c : Cursor) : Nat := c.rest.length + 1

end Cursor

/-- The characters of the names of anchors, handles and directives. -/
def isNameChar (c : Char) : Bool := c.isAlphanum || c == '-' || c == '_'

end Reckoner.Yaml
