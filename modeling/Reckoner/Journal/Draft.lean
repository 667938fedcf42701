import Reckoner.Fault
import Reckoner.Journal.Event
import Reckoner.Journal.Version

/-!
Events from loosely typed data. Level and type must be known words, texts must be texts and the
context a mapping; the version may be any form of a whole number. What is missing has a default,
except for level and type. All fields that are wrong are reported together.
-/
namespace Reckoner.Journal

open Data

def asText? : Value → Option (List Char)
  | .text s => some s
  | _ => none

/-- The fields of an event under construction; a field that is wrong is `none`. -/
structure Draft where
  context : Option (List (List Char × Value))
  errorCode : Option (Option (List Char))
  subject : Option Subject
  level : Option Level
  message : Option (List Char)
  version : Option Int
  stamp : Option (List Char)

namespace Draft

/-- Reads a field by `read`, or takes the default where it is missing. -/
def field {α : Type} (fields : List (List Char × Value)) (name : String) (missing : Option α)
    (read : Value → Option α) : Option α :=
  match Assoc.get? fields name.toList with
  | some v => read v
  | none => missing

/-- Reads fields; `stamp` is the time of an event that names none. -/
def ofFields (stamp : List Char) (fields : List (List Char × Value)) : Draft where
  context := field fields "context" (some []) fun v =>
    match v with
    | .map entries => some entries
    | _ => none
  errorCode := field fields "error_code" (some none) fun v =>
    match v with
    | .null => some none
    | .text s => some (some s)
    | _ => none
  subject := field fields "event_type" none fun v => (asText? v).bind Subject.ofWord?
  level := field fields "level" none fun v => (asText? v).bind Level.ofWord?
  message := field fields "message" (some []) asText?
  version := field fields "schema_version" (some 1) wholeNumber?
  stamp := field fields "ts" (some stamp) asText?

def missing {α : Type} (name : String) (o : Option α) : List (List Char) :=
  match o with
  | some _ => []
  | none => [name.toList]

/-- The names of the wrong fields in order. -/
def problems (d : Draft) : List (List Char) :=
  missing "context" d.context ++ missing "error_code" d.errorCode
    ++ missing "event_type" d.subject ++ missing "level" d.level ++ missing "message" d.message
    ++ missing "schema_version" d.version ++ missing "ts" d.stamp

def event (d : Draft) : Except Breakdown Event :=
  match d with
  | ⟨some context, some errorCode, some subject, some level, some message, some version,
      some stamp⟩ =>
    .ok { version, stamp, level, subject, context, message, errorCode }
  | d => .error (.invalidEvent d.problems)

end Draft

/-- Whether data names the time of its event. -/
def namesStamp (fields : List (List Char × Value)) : Bool := Assoc.has fields "ts".toList

def Event.ofFields (stamp : List Char) (fields : List (List Char × Value)) :
    Except Breakdown Event :=
  (Draft.ofFields stamp fields).event

end Reckoner.Journal
