import Reckoner.Text.Numeric
import Reckoner.Text.Utf8

/-!
Base64: bytes in groups of four characters, each of which holds six bits. Characters outside of the
alphabet are passed over. A group may be filled up with equals signs, which end the text; without
them the last group must be complete.
-/
namespace Reckoner.Text.Base64

/-- The six bits of a character. -/
def bits? (c : Char) : Option Nat :=
  if 'A' ≤ c ∧ c ≤ 'Z' then some (c.toNat - 65)
  else if 'a' ≤ c ∧ c ≤ 'z' then some (c.toNat - 71)
  else if isAsciiDigit c then some (c.toNat + 4)
  else if c = '+' then some 62
  else if c = '/' then some 63
  else none

/-- The bytes that a group of up to four characters completes. -/
def groupBytes : List Nat → Utf8.Bytes
  | [a, b] => [(a * 4 + b / 16).toUInt8]
  | [a, b, c] => [(a * 4 + b / 16).toUInt8, (b % 16 * 16 + c / 4).toUInt8]
  | [a, b, c, d] =>
    [(a * 4 + b / 16).toUInt8, (b % 16 * 16 + c / 4).toUInt8, (c % 4 * 64 + d).toUInt8]
  | _ => []

/-- The bytes from an open group on; `signs` counts the equals signs after its last character. -/
def decodeFrom (group : List Nat) (signs : Nat) : List Char → Option Utf8.Bytes
  | [] => if group.isEmpty then some [] else none
  | c :: r =>
    if c = '=' then
      if group.length < 2 then decodeFrom group signs r
      else if 4 ≤ group.length + signs + 1 then some (groupBytes group)
      else decodeFrom group (signs + 1) r
    else match bits? c with
      | none => decodeFrom group signs r
      | some b =>
        if group.length = 3 then (decodeFrom [] 0 r).map (groupBytes (group ++ [b]) ++ ·)
        else decodeFrom (group ++ [b]) 0 r

def decode? (s : List Char) : Option Utf8.Bytes := decodeFrom [] 0 s

end Reckoner.Text.Base64
