import Reckoner.Journal.Attribution
import Reckoner.Journal.Draft
import Reckoner.Journal.Log
import Reckoner.Journal.Redaction
import Reckoner.Journal.Warnings

/-!
A session: the files, the log in use if there is one, and the sources of times and run ids. Emitting
an event never fails; where it cannot be written a warning is printed instead.
-/
namespace Reckoner

open Data Files Journal

structure Session where
  tree : Tree
  log : Option Log
  /-- The time of each event in turn. -/
  stampAt : Nat → List Char
  /-- How many events have been stamped. -/
  stamped : Nat
  /-- The id of each run in turn. -/
  runIdAt : Nat → List Char
  /-- How many runs have been started. -/
  started : Nat
  warnings : Warnings

namespace Session

def warn (s : Session) (message : String) : Session :=
  { s with warnings := s.warnings.warn message.toList }

/-- The next stamp; the session in which it is used up. -/
def takeStamp (s : Session) : List Char × Session :=
  (s.stampAt (s.stamped + 1), { s with stamped := s.stamped + 1 })

/-- The id of the next run; the session in which it is used up. -/
def takeRunId (s : Session) : List Char × Session :=
  (s.runIdAt (s.started + 1), { s with started := s.started + 1 })

/-- Writes an event to the log, if there is one. -/
def emit (s : Session) (e : Event) (run : Option (List Char)) : Session :=
  match s.log with
  | none => s
  | some log =>
    match log.write s.tree e.redacted.attributed run with
    | (tree, none) => { s with tree }
    | (tree, some _) => { s with tree }.warn "logging failed"

/-- An event of which all parts but the time are known. -/
structure Notice where
  level : Level
  subject : Subject
  message : List Char
  context : List (List Char × Value)
  errorCode : Option (List Char)

/-- The event of a notice at a time. -/
def Notice.event (n : Notice) (stamp : List Char) : Event where
  version := 1
  stamp := stamp
  level := n.level
  subject := n.subject
  context := n.context
  message := n.message
  errorCode := n.errorCode

/-- Stamps a notice and emits it. -/
def notify (s : Session) (n : Notice) (run : Option (List Char)) : Session :=
  let (stamp, s) := s.takeStamp
  s.emit (n.event stamp) run

/-- Reads an event from data and stamps it if it names no time. -/
def readEvent (s : Session) (fields : List (List Char × Value)) :
    Except Breakdown Event × Session :=
  if namesStamp fields then (Event.ofFields [] fields, s)
  else
    let (stamp, s) := s.takeStamp
    (Event.ofFields stamp fields, s)

end Session

end Reckoner
