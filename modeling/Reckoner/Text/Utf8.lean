/-!
The UTF-8 form of a text, as a list of bytes. `decode?` refuses bytes that encode no text;
`decodeLossy` reads each longest start of a broken sequence as one replacement character.
-/
namespace Reckoner.Text.Utf8

abbrev Bytes := List UInt8

def encodeChar (c : Char) : Bytes :=
  let n := c.toNat
  if n < 0x80 then [n.toUInt8]
  else if n < 0x800 then [(0xC0 + n / 64).toUInt8, (0x80 + n % 64).toUInt8]
  else if n < 0x10000 then
    [(0xE0 + n / 4096).toUInt8, (0x80 + n / 64 % 64).toUInt8, (0x80 + n % 64).toUInt8]
  else
    [(0xF0 + n / 262144).toUInt8, (0x80 + n / 4096 % 64).toUInt8, (0x80 + n / 64 % 64).toUInt8,
      (0x80 + n % 64).toUInt8]

def encode (s : List Char) : Bytes := s.flatMap encodeChar

/-- The number of continuation bytes after a first byte, with the range of the first of them. -/
def lead? (b : Nat) : Option (Nat × Nat × Nat) :=
  if b < 0xC2 then none
  else if b < 0xE0 then some (1, 0x80, 0xBF)
  else if b = 0xE0 then some (2, 0xA0, 0xBF)
  else if b = 0xED then some (2, 0x80, 0x9F)
  else if b < 0xF0 then some (2, 0x80, 0xBF)
  else if b = 0xF0 then some (3, 0x90, 0xBF)
  else if b < 0xF4 then some (3, 0x80, 0xBF)
  else if b = 0xF4 then some (3, 0x80, 0x8F)
  else none

/-- The part of a character that was read: its bits so far, the continuation bytes to come and
the range of the next one. -/
structure Partial where
  bits : Nat
  more : Nat
  low : Nat
  high : Nat

/-- A byte where a character starts: the characters it completes and the state it leaves. -/
def startByte (bad : Option Char) (n : Nat) : Option (List Char × Option Partial) :=
  if n < 0x80 then some ([Char.ofNat n], none)
  else match lead? n with
    | some (more, low, high) =>
      let bits := if more = 1 then n - 0xC0 else if more = 2 then n - 0xE0 else n - 0xF0
      some ([], some ⟨bits, more, low, high⟩)
    | none => bad.map fun c => ([c], none)

/-- One byte in a state; `bad` is what a broken sequence becomes, or `none` to refuse it. -/
def step (bad : Option Char) : Option Partial → Nat → Option (List Char × Option Partial)
  | none, n => startByte bad n
  | some p, n =>
    if p.low ≤ n && n ≤ p.high then
      let bits := p.bits * 64 + (n - 0x80)
      if p.more = 1 then some ([Char.ofNat bits], none)
      else some ([], some ⟨bits, p.more - 1, 0x80, 0xBF⟩)
    else bad.bind fun c => (startByte bad n).map fun (cs, next) => (c :: cs, next)

def decodeFrom (bad : Option Char) : Option Partial → Bytes → Option (List Char)
  | none, [] => some []
  | some _, [] => bad.map ([·])
  | state, b :: r =>
    (step bad state b.toNat).bind fun (cs, next) => (decodeFrom bad next r).map (cs ++ ·)

def decode? (bytes : Bytes) : Option (List Char) := decodeFrom none none bytes

def decodeLossy (bytes : Bytes) : List Char :=
  (decodeFrom (some '\uFFFD') none bytes).getD []

end Reckoner.Text.Utf8
