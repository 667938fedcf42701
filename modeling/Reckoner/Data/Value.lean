import Reckoner.Assoc
import Reckoner.Number.Layout
import Reckoner.Number.Reading
import Reckoner.Text.Quoted

/-!
Values of the data formats: settings, event contexts and records of the event log. A value can be
read as a number in the ways the formats allow, and has a written form for messages.
-/
namespace Reckoner.Data

open Text Number

inductive Value
  | null
  | bool (b : Bool)
  | int (n : Int)
  | float (x : Float)
  | text (s : List Char)
  | list (items : List Value)
  | map (entries : List (List Char × Value))
deriving Inhabited

namespace Value

/-- Nothing, zero and whatever is empty do not hold. -/
def holds : Value → Bool
  | null => false
  | bool b => b
  | int n => n != 0
  | float x => x != 0
  | text s => !s.isEmpty
  | list items => !items.isEmpty
  | map entries => !entries.isEmpty

def get? (v : Value) (key : List Char) : Option Value :=
  match v with
  | map entries => Assoc.get? entries key
  | _ => none

def decimalInt (n : Int) : List Char := withSign (n < 0) (decimalDigits n.natAbs)

def commaSeparated : List (List Char) → List Char
  | [] => []
  | [s] => s
  | s :: rest => s ++ ',' :: ' ' :: commaSeparated rest

mutual

/-- The form of a value in messages. -/
def shown : Value → List Char
  | null => "None".toList
  | bool true => "True".toList
  | bool false => "False".toList
  | int n => decimalInt n
  | float x => Number.shown x
  | text s => quoted s
  | list items => '[' :: commaSeparated (shownItems items) ++ [']']
  | map entries => '\x7b' :: commaSeparated (shownEntries entries) ++ ['\x7d']

def shownItems : List Value → List (List Char)
  | [] => []
  | v :: rest => shown v :: shownItems rest

def shownEntries : List (List Char × Value) → List (List Char)
  | [] => []
  | (k, v) :: rest => (quoted k ++ ':' :: ' ' :: shown v) :: shownEntries rest

end

/-- The text of a value where it stands by itself: a text without quotes, else the form in
messages. -/
def plain : Value → List Char
  | text s => s
  | v => shown v

/-- The name of a kind of value that is no number. -/
def kindName : Value → List Char
  | null => "NoneType".toList
  | bool _ => "bool".toList
  | int _ => "int".toList
  | float _ => "float".toList
  | text _ => "str".toList
  | list _ => "list".toList
  | map _ => "dict".toList

/-- Whether a value is a whole number, or a truth value counted as 0 or 1, equal to `n`. -/
def equalsInt (v : Value) (n : Int) : Bool :=
  match v with
  | int k => k == n
  | bool b => (if b then 1 else 0) == n
  | float x =>
    match Binary.ofFloat? x with
    | some b => b.floor == n && b.ceiling == n
    | none => false
  | _ => false

def equalsText (v : Value) (s : List Char) : Bool :=
  match v with
  | text t => t == s
  | _ => false

end Value

end Reckoner.Data
