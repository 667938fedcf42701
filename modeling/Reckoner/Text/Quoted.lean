import Reckoner.Text.Printable
import Reckoner.Text.Utf8

/-!
Texts between quotes, as messages show them. Single quotes are used unless the text holds a single
quote and no double quote. A backslash, the quote in use and every character that does not print
are escaped. Bytes are shown likewise as the characters of their codes, with a mark before the
quotes; those beyond ASCII are escaped.
-/
namespace Reckoner.Text

def hexDigit (n : Nat) : Char :=
  if n < 10 then Char.ofNat (48 + n) else Char.ofNat (87 + n)

/-- The lower case hexadecimal digits of a number, in a fixed width. -/
def hexDigits : Nat → Nat → List Char
  | 0, _ => []
  | width + 1, n => hexDigits width (n / 16) ++ [hexDigit (n % 16)]

def escapeCode (n : Nat) : List Char :=
  if n < 256 then '\\' :: 'x' :: hexDigits 2 n
  else if n < 65536 then '\\' :: 'u' :: hexDigits 4 n
  else '\\' :: 'U' :: hexDigits 8 n

def quoteChar (quote c : Char) : List Char :=
  if c = quote then ['\\', c]
  else if c = '\\' then ['\\', '\\']
  else if c = '\t' then ['\\', 't']
  else if c = '\n' then ['\\', 'n']
  else if c = '\r' then ['\\', 'r']
  else if isPrintable c then [c]
  else escapeCode c.toNat

def quoteFor (s : List Char) : Char :=
  if s.contains '\x27' && !s.contains '\x22' then '\x22' else '\x27'

def quoted (s : List Char) : List Char :=
  let quote := quoteFor s
  quote :: s.flatMap (quoteChar quote) ++ [quote]

def quotedBytes (bytes : Utf8.Bytes) : List Char :=
  let s := bytes.map fun b => Char.ofNat b.toNat
  let quote := quoteFor s
  let shown (c : Char) : List Char :=
    if c.toNat < 128 then quoteChar quote c else escapeCode c.toNat
  'b' :: quote :: s.flatMap shown ++ [quote]

end Reckoner.Text
