import Reckoner.Json.Writer

/-!
Events of the journal. An event is stored as one line: a JSON mapping with its keys in order.
-/
namespace Reckoner.Journal

open Data

inductive Level
  | info
  | warning
  | error
deriving DecidableEq

namespace Level

def word : Level → List Char
  | info => "info".toList
  | warning => "warning".toList
  | error => "error".toList

def ofWord? (s : List Char) : Option Level := [info, warning, error].find? (·.word == s)

end Level

inductive Subject
  | evaluateCompleted
  | evaluateFailed
  | documentProcessed
  | documentExhausted
  | lineError
deriving DecidableEq

namespace Subject

def word : Subject → List Char
  | evaluateCompleted => "evaluate_completed".toList
  | evaluateFailed => "evaluate_failed".toList
  | documentProcessed => "document_processed".toList
  | documentExhausted => "document_exhausted".toList
  | lineError => "line_error".toList

def all : List Subject :=
  [evaluateCompleted, evaluateFailed, documentProcessed, documentExhausted, lineError]

def ofWord? (s : List Char) : Option Subject := all.find? (·.word == s)

end Subject

def runKey : List Char := "run_id".toList

def lineKey : List Char := "line".toList

def expressionKey : List Char := "expression".toList

structure Event where
  version : Int
  /-- When the event came about. -/
  stamp : List Char
  level : Level
  subject : Subject
  context : List (List Char × Value)
  message : List Char
  errorCode : Option (List Char)

mutual

/-- The value without numbers that are not finite, which the log stores as nothing. -/
def storable : Value → Value
  | .float x => if x.isFinite then .float x else .null
  | .list items => .list (storableItems items)
  | .map entries => .map (storableEntries entries)
  | v => v

def storableItems : List Value → List Value
  | [] => []
  | v :: rest => storable v :: storableItems rest

def storableEntries : List (List Char × Value) → List (List Char × Value)
  | [] => []
  | (k, v) :: rest => (k, storable v) :: storableEntries rest

end

namespace Event

def toValue (e : Event) : Value :=
  .map [
    ("context".toList, .map (storableEntries e.context)),
    ("error_code".toList, match e.errorCode with
      | some code => .text code
      | none => .null),
    ("event_type".toList, .text e.subject.word),
    ("level".toList, .text e.level.word),
    ("message".toList, .text e.message),
    ("schema_version".toList, .int e.version),
    ("ts".toList, .text e.stamp)]

def written (e : Event) : List Char := Json.writeSorted e.toValue

end Event

end Reckoner.Journal
