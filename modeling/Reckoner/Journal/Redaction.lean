import Reckoner.Journal.Event

/-!
Redaction of contexts. Long texts are cut at every depth, so that whole expressions and documents do
not end up in the journal; everything else is kept.
-/
namespace Reckoner.Journal

open Data

def textLimit : Nat := 256

def cutMark : List Char := "...[truncated]".toList

def shorten (s : List Char) : List Char :=
  if textLimit < s.length then s.take textLimit ++ cutMark else s

mutual

def redact : Value → Value
  | .text s => .text (shorten s)
  | .list items => .list (redactItems items)
  | .map entries => .map (redactEntries entries)
  | v => v

def redactItems : List Value → List Value
  | [] => []
  | v :: rest => redact v :: redactItems rest

def redactEntries : List (List Char × Value) → List (List Char × Value)
  | [] => []
  | (k, v) :: rest => (k, redact v) :: redactEntries rest

end

def Event.redacted (e : Event) : Event := { e with context := redactEntries e.context }

end Reckoner.Journal
