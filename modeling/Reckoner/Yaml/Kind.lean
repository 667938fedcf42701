import Reckoner.Yaml.Moment

/-!
Kinds of nodes. A tag names the kind; a plain scalar without a tag has the kind that its text looks
like, and is a text if it looks like nothing else.
-/
namespace Reckoner.Yaml

open Text

inductive Kind
  | null
  | bool
  | int
  | float
  | time
  | text
  | binary
  | sequence
  | mapping
  /-- The keys of a mapping. -/
  | set
  /-- A sequence of mappings with one entry each. -/
  | pairs
  /-- The key under which other mappings are merged. -/
  | merge
  /-- The key whose value stands for its mapping. -/
  | default
  | unknown
deriving DecidableEq

namespace Kind

def kindTags : List (List Char × Kind) := [
  ("null".toList, null), ("bool".toList, bool), ("int".toList, int), ("float".toList, float),
  ("timestamp".toList, time), ("str".toList, text), ("binary".toList, binary),
  ("seq".toList, sequence), ("map".toList, mapping), ("set".toList, set),
  ("omap".toList, pairs), ("pairs".toList, pairs), ("merge".toList, merge),
  ("value".toList, default)]

def standardTag : List Char := "tag:yaml.org,2002:".toList

def ofTag (tag : List Char) : Kind :=
  if tag.take standardTag.length = standardTag then
    (Assoc.get? kindTags (tag.drop standardTag.length)).getD unknown
  else unknown

def nullWords : List (List Char) := ["~", "null", "Null", "NULL", ""].map String.toList

def trueWords : List (List Char) :=
  ["yes", "Yes", "YES", "true", "True", "TRUE", "on", "On", "ON"].map String.toList

def falseWords : List (List Char) :=
  ["no", "No", "NO", "false", "False", "FALSE", "off", "Off", "OFF"].map String.toList

/-- The words that only look like the start of something else. -/
def indicatorWords : List (List Char) := [['!'], ['&'], ['*']]

def isDigitOrMark (c : Char) : Bool := isAsciiDigit c || c == '_'

def dropSign : List Char → List Char
  | '+' :: r => r
  | '-' :: r => r
  | s => s

/-- Whether a text is one or more parts that each start with a colon and are below 60. -/
def isSexagesimalTail : List Char → Bool
  | ':' :: a :: ':' :: r => isAsciiDigit a && isSexagesimalTail (':' :: r)
  | ':' :: a :: b :: r =>
    '0' ≤ a && a ≤ '5' && isAsciiDigit b && (r.isEmpty || isSexagesimalTail r)
  | [':', a] => isAsciiDigit a
  | _ => false

def isInt (s : List Char) : Bool :=
  match dropSign s with
  | '0' :: 'b' :: r => !r.isEmpty && r.all fun c => c == '0' || c == '1' || c == '_'
  | '0' :: 'x' :: r => !r.isEmpty && r.all fun c => isAsciiDigit c || c == '_'
      || ('a' ≤ c && c ≤ 'f') || ('A' ≤ c && c ≤ 'F')
  | '0' :: r => r.all fun c => ('0' ≤ c && c ≤ '7') || c == '_'
  | c :: r => isAsciiDigit c &&
      ((r.dropWhile isDigitOrMark).isEmpty || isSexagesimalTail (r.dropWhile isDigitOrMark))
  | [] => false

def isExponent : List Char → Bool
  | [] => true
  | e :: sign :: r =>
    (e == 'e' || e == 'E') && (sign == '+' || sign == '-') && !r.isEmpty && r.all isAsciiDigit
  | _ => false

def infinityWords : List (List Char) := [".inf", ".Inf", ".INF"].map String.toList

def undefinedWords : List (List Char) := [".nan", ".NaN", ".NAN"].map String.toList

/-- A fraction in digits after a point, with an optional exponent. -/
def isFraction (s : List Char) : Bool := isExponent (s.dropWhile isDigitOrMark)

def isFloat (s : List Char) : Bool :=
  infinityWords.contains (dropSign s) || undefinedWords.contains s
    || (match s with
      | '.' :: c :: r => isAsciiDigit c && isFraction r
      | _ => false)
    || (match dropSign s with
      | c :: r =>
        isAsciiDigit c && (match r.dropWhile isDigitOrMark with
          | '.' :: r => isFraction r
          | ':' :: r =>
            let sixties := (':' :: r).takeWhile (· != '.')
            match (':' :: r).dropWhile (· != '.') with
            | '.' :: r => isSexagesimalTail sixties && r.all isDigitOrMark
            | _ => false
          | _ => false)
      | [] => false)

end Kind

/-- The kind that a word looks like. -/
def Kind.ofWord (s : List Char) : Kind :=
  if trueWords.contains s || falseWords.contains s then .bool
  else if isFloat s then .float
  else if isInt s then .int
  else if s = ['<', '<'] then .merge
  else if nullWords.contains s then .null
  else if Moment.isWritten s then .time
  else if s = ['='] then .default
  else if indicatorWords.contains s then .unknown
  else .text

/-- The kind that the text of a plain scalar looks like. One line feed at the end does not count,
but a line feed by itself is a text. -/
def Kind.ofPlain (s : List Char) : Kind :=
  if s = ['\n'] then .text else ofWord (dropLastLineFeed s)

end Reckoner.Yaml
