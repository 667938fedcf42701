import Reckoner.Data.Value

/-!
Reading JSON. A text is cut into tokens, and the tokens are put together with a stack of the lists
and mappings that are still open. Infinities and the undefined number are accepted; of several
entries with one key the last counts. A number too long to be read is an error of its own kind.
-/
namespace Reckoner.Json

open Text Number Data

inductive Token
  | openList
  | closeList
  | openMap
  | closeMap
  | comma
  | colon
  | value (v : Value)
  | text (s : List Char)
  | tooLong (count : Nat)
  | illegal

def unescape? (c : Char) : Option Char :=
  if c = '\x22' then some '\x22'
  else if c = '\\' then some '\\'
  else if c = '/' then some '/'
  else if c = 'b' then some '\x08'
  else if c = 'f' then some '\x0c'
  else if c = 'n' then some '\n'
  else if c = 'r' then some '\r'
  else if c = 't' then some '\t'
  else none

def unitValue? (a b c d : Char) : Option Nat := do
  let a ← hexValue? a
  let b ← hexValue? b
  let c ← hexValue? c
  let d ← hexValue? d
  return ((a * 16 + b) * 16 + c) * 16 + d

/-- The code units of a quoted text up to its closing quote, and what follows. -/
def readUnits : List Char → Option (List Nat × List Char)
  | [] => none
  | '\\' :: 'u' :: a :: b :: c :: d :: r => do
    let unit ← unitValue? a b c d
    let (units, rest) ← readUnits r
    return (unit :: units, rest)
  | '\\' :: c :: r => do
    let unit ← unescape? c
    let (units, rest) ← readUnits r
    return (unit.toNat :: units, rest)
  | c :: r =>
    if c = '\x22' then some ([], r)
    else if c = '\\' ∨ c.toNat < 32 then none
    else do
      let (units, rest) ← readUnits r
      return (c.toNat :: units, rest)

def isHigh (n : Nat) : Bool := 0xD800 ≤ n && n < 0xDC00

def isLow (n : Nat) : Bool := 0xDC00 ≤ n && n < 0xE000

/-- Joins pairs of surrogates; a surrogate by itself becomes the replacement character. -/
def joinUnits : List Nat → List Char
  | [] => []
  | [n] => [if isHigh n || isLow n then '\uFFFD' else Char.ofNat n]
  | m :: n :: r =>
    if isHigh m && isLow n then
      Char.ofNat (0x10000 + (m - 0xD800) * 0x400 + (n - 0xDC00)) :: joinUnits r
    else (if isHigh m || isLow m then '\uFFFD' else Char.ofNat m) :: joinUnits (n :: r)

/-- The digits of a number with an optional part after the point and an optional exponent. -/
structure Numeral where
  negative : Bool
  whole : List Char
  fraction : Option (List Char)
  exponent : Option (Bool × List Char)

namespace Numeral

/-- The fractional part: a point and digits. -/
def takeFraction : List Char → Option (List Char) × List Char
  | '.' :: r =>
    let digits := r.takeWhile isAsciiDigit
    if digits.isEmpty then (none, '.' :: r) else (some digits, r.dropWhile isAsciiDigit)
  | s => (none, s)

/-- The exponent: a letter, an optional sign and digits. -/
def takeExponent : List Char → Option (Bool × List Char) × List Char
  | c :: r =>
    let (negative, s) := splitSign r
    let digits := s.takeWhile isAsciiDigit
    if (c = 'e' ∨ c = 'E') ∧ !digits.isEmpty then
      (some (negative, digits), s.dropWhile isAsciiDigit)
    else (none, c :: r)
  | [] => (none, [])

/-- A number at the start of a text; a leading zero stands by itself. -/
def take? (s : List Char) : Option (Numeral × List Char) :=
  let (negative, s) := match s with
    | '-' :: r => (true, r)
    | _ => (false, s)
  let (whole, s) := match s with
    | '0' :: r => (['0'], r)
    | _ => (s.takeWhile isAsciiDigit, s.dropWhile isAsciiDigit)
  if whole.isEmpty then none
  else
    let (fraction, s) := takeFraction s
    let (exponent, s) := takeExponent s
    some (⟨negative, whole, fraction, exponent⟩, s)

def token (n : Numeral) : Token :=
  match n.fraction, n.exponent with
  | none, none =>
    if digitLimit < n.whole.length then .tooLong n.whole.length
    else
      let m : Int := digitsValue n.whole
      .value (.int (if n.negative then -m else m))
  | fraction, exponent =>
    let places := fraction.getD []
    let e : Int := match exponent with
      | none => 0
      | some (true, digits) => -(digitsValue digits : Int)
      | some (false, digits) => digitsValue digits
    .value (.float (nearestDecimal n.negative (digitsValue (n.whole ++ places))
      (e - places.length)))

end Numeral

/-- The words that are values. -/
def words : List (List Char × Value) := [
  ("null".toList, .null),
  ("true".toList, .bool true),
  ("false".toList, .bool false),
  ("NaN".toList, .float undefinedNumber),
  ("Infinity".toList, .float (infinity false)),
  ("-Infinity".toList, .float (infinity true))]

def isSpace (c : Char) : Bool := c == ' ' || c == '\t' || c == '\n' || c == '\r'

def punctuation? (c : Char) : Option Token :=
  if c = '[' then some .openList
  else if c = ']' then some .closeList
  else if c = '\x7b' then some .openMap
  else if c = '\x7d' then some .closeMap
  else if c = ',' then some .comma
  else if c = ':' then some .colon
  else none

/-- The token at the start of a text that begins with `c`, and the number of characters after `c`
that belong to it. -/
def tokenAt (c : Char) (r : List Char) : Token × Nat :=
  match punctuation? c with
  | some token => (token, 0)
  | none =>
    if c = '\x22' then
      match readUnits r with
      | some (units, rest) => (.text (joinUnits units), r.length - rest.length)
      | none => (.illegal, 0)
    else match words.find? fun w => w.1.isPrefixOf (c :: r) with
      | some (word, v) => (.value v, word.length - 1)
      | none =>
        match Numeral.take? (c :: r) with
        | some (n, rest) => (n.token, r.length - rest.length)
        | none => (.illegal, 0)

def tokens : List Char → List Token
  | [] => []
  | c :: r =>
    if isSpace c then tokens r
    else
      let found := tokenAt c r
      found.1 :: tokens (r.drop found.2)
termination_by s => s.length
decreasing_by
  · simp
  · simp only [List.length_drop, List.length_cons]
    omega

/-- A list or mapping that is still open, with the entries read so far, and for a mapping the key
that waits for its value. -/
inductive Frame
  | list (items : List Value)
  | map (entries : List (List Char × Value)) (key : List Char)

/-- What may come next. -/
inductive State
  /-- A value. -/
  | value (stack : List Frame)
  /-- The first item of a list, or its end. -/
  | firstItem (stack : List Frame)
  /-- The first key of a mapping, or its end. -/
  | firstKey (stack : List Frame)
  /-- A further key of a mapping. -/
  | key (entries : List (List Char × Value)) (stack : List Frame)
  /-- The colon after a key. -/
  | colon (entries : List (List Char × Value)) (key : List Char) (stack : List Frame)
  /-- A comma or the end of a list or mapping, after a complete value. -/
  | after (v : Value) (stack : List Frame)

/-- Why a text is not read. -/
inductive ReadError
  | malformed
  | tooManyDigits (count : Nat)
deriving DecidableEq

/-- A value token, or the start of a list or mapping. -/
def startValue (stack : List Frame) : Token → Except ReadError State
  | .value v => .ok (.after v stack)
  | .text s => .ok (.after (.text s) stack)
  | .openList => .ok (.firstItem stack)
  | .openMap => .ok (.firstKey stack)
  | .tooLong count => .error (.tooManyDigits count)
  | _ => .error .malformed

def State.next : State → Token → Except ReadError State
  | .value stack, token => startValue stack token
  | .firstItem stack, .closeList => .ok (.after (.list []) stack)
  | .firstItem stack, token => startValue (.list [] :: stack) token
  | .firstKey stack, .closeMap => .ok (.after (.map []) stack)
  | .firstKey stack, .text s => .ok (.colon [] s stack)
  | .key entries stack, .text s => .ok (.colon entries s stack)
  | .colon entries name stack, .colon => .ok (.value (.map entries name :: stack))
  | .after v (.list items :: stack), .comma => .ok (.value (.list (items ++ [v]) :: stack))
  | .after v (.list items :: stack), .closeList => .ok (.after (.list (items ++ [v])) stack)
  | .after v (.map entries name :: stack), .comma => .ok (.key (Assoc.set entries name v) stack)
  | .after v (.map entries name :: stack), .closeMap =>
    .ok (.after (.map (Assoc.set entries name v)) stack)
  | _, _ => .error .malformed

def runTokens (state : State) : List Token → Except ReadError Value
  | [] =>
    match state with
    | .after v [] => .ok v
    | _ => .error .malformed
  | token :: rest =>
    match state.next token with
    | .ok next => runTokens next rest
    | .error e => .error e

def read (s : List Char) : Except ReadError Value := runTokens (.value []) (tokens s)

end Reckoner.Json
