import Reckoner.Data.Value
import Reckoner.Text.Order

/-!
Writing values as JSON. The text is plain ASCII: other characters are escaped, those beyond the
first plane as two surrogates. Values are written on one line, or indented with one entry a line.
-/
namespace Reckoner.Json

open Text Number Data

def unitEscape (n : Nat) : List Char := '\\' :: 'u' :: hexDigits 4 n

def escapeChar (c : Char) : List Char :=
  if c = '\x22' then ['\\', '\x22']
  else if c = '\\' then ['\\', '\\']
  else if c = '\n' then ['\\', 'n']
  else if c = '\r' then ['\\', 'r']
  else if c = '\t' then ['\\', 't']
  else if c = '\x0c' then ['\\', 'f']
  else if c = '\x08' then ['\\', 'b']
  else if 32 ≤ c.toNat ∧ c.toNat < 127 then [c]
  else if c.toNat < 0x10000 then unitEscape c.toNat
  else
    let n := c.toNat - 0x10000
    unitEscape (0xD800 + n / 0x400) ++ unitEscape (0xDC00 + n % 0x400)

def writeText (s : List Char) : List Char := '\x22' :: s.flatMap escapeChar ++ ['\x22']

def writeFloat (x : Float) : List Char :=
  if x.isFinite then Number.shown x
  else if x.isNaN then "NaN".toList
  else if isNegative x then "-Infinity".toList
  else "Infinity".toList

/-- The white space between the parts of a written value. -/
structure Style where
  /-- The indentation of one level, or `none` for values on one line. -/
  indent : Option Nat

def Style.line : Style := ⟨none⟩

def Style.indented : Style := ⟨some 2⟩

/-- What stands before an entry or a closing bracket at a depth. -/
def Style.break (style : Style) (depth : Nat) : List Char :=
  match style.indent with
  | none => []
  | some n => '\n' :: List.replicate (n * depth) ' '

def Style.comma (style : Style) : List Char :=
  match style.indent with
  | none => [',', ' ']
  | some _ => [',']

def joined (separator : List Char) : List (List Char) → List Char
  | [] => []
  | [s] => s
  | s :: rest => s ++ separator ++ joined separator rest

/-- Entries between brackets at a depth. -/
def bracketed (style : Style) (depth : Nat) (opening closing : Char) (parts : List (List Char)) :
    List Char :=
  if parts.isEmpty then [opening, closing]
  else
    opening :: style.break (depth + 1)
      ++ joined (style.comma ++ style.break (depth + 1)) parts ++ style.break depth ++ [closing]

mutual

def writeAt (style : Style) (depth : Nat) : Value → List Char
  | .null => "null".toList
  | .bool true => "true".toList
  | .bool false => "false".toList
  | .int n => Value.decimalInt n
  | .float x => writeFloat x
  | .text s => writeText s
  | .list items => bracketed style depth '[' ']' (writeItems style (depth + 1) items)
  | .map entries => bracketed style depth '\x7b' '\x7d' (writeEntries style (depth + 1) entries)

def writeItems (style : Style) (depth : Nat) : List Value → List (List Char)
  | [] => []
  | v :: rest => writeAt style depth v :: writeItems style depth rest

def writeEntries (style : Style) (depth : Nat) : List (List Char × Value) → List (List Char)
  | [] => []
  | (k, v) :: rest =>
    (writeText k ++ ':' :: ' ' :: writeAt style depth v) :: writeEntries style depth rest

end

mutual

/-- The value with the entries of every mapping in the order of their keys. -/
def sorted : Value → Value
  | .list items => .list (sortedItems items)
  | .map entries => .map (sortByKey (sortedEntries entries))
  | v => v

def sortedItems : List Value → List Value
  | [] => []
  | v :: rest => sorted v :: sortedItems rest

def sortedEntries : List (List Char × Value) → List (List Char × Value)
  | [] => []
  | (k, v) :: rest => (k, sorted v) :: sortedEntries rest

end

def write (v : Value) : List Char := writeAt .line 0 v

def writeSorted (v : Value) : List Char := write (sorted v)

def writeIndented (v : Value) : List Char := writeAt .indented 0 v

end Reckoner.Json
