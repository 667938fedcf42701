import Reckoner.Assoc
import Reckoner.Journal.Event

/-!
Attribution of events. The context of an event must say to what it belongs. An event that does not
is kept, but as a warning that lists what is missing.
-/
namespace Reckoner.Journal

open Data

/-- The context keys that an event needs, in order. -/
def Subject.required : Subject → List (List Char)
  | evaluateCompleted => [expressionKey]
  | evaluateFailed => [expressionKey]
  | documentProcessed => [runKey]
  | documentExhausted => [runKey]
  | lineError => [lineKey, runKey]

def missingKey : List Char := "_missing_attribution".toList

def Event.missing (e : Event) : List (List Char) :=
  e.subject.required.filter fun k => !Assoc.has e.context k

def Event.attributed (e : Event) : Event :=
  if e.missing.isEmpty then e
  else { e with
    level := .warning
    context := Assoc.set e.context missingKey (.list (e.missing.map .text)) }

end Reckoner.Journal
