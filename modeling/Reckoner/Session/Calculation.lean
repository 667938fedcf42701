import Reckoner.Document.Run
import Reckoner.Session.Basic

/-!
Evaluating expressions and documents in a session. What happens is noted in the journal, and the
answer does not depend on the journal.
-/
namespace Reckoner

open Text Data Journal Formula Number Document

/-- The value of an expression in a context given as data. -/
def valueIn (context : Value) (depth : Int) (expression : List Char) : Except Failure Float := do
  let scope ← Scope.ofValue context
  evaluate Builtin.table depth scope expression

namespace Session

def completed (expression result : List Char) : Notice where
  level := .info
  subject := .evaluateCompleted
  message := expression ++ " = ".toList ++ result
  context := [(expressionKey, .text expression), ("result".toList, .text result)]
  errorCode := none

def failed (expression : List Char) (f : Fault) : Notice where
  level := .error
  subject := .evaluateFailed
  message := f.message
  context := [(expressionKey, .text expression)]
  errorCode := some f.kind.code

/-- Evaluates an expression and gives its value as it is shown. -/
def evaluate (s : Session) (expression : List Char) (context precision : Value) (depth : Int) :
    Except Failure (List Char) × Session :=
  match valueIn context depth expression with
  | .error (.fault f) => (.error (.fault f), s.notify (failed expression f) none)
  | .error (.breakdown b) => (.error (.breakdown b), s)
  | .ok x =>
    match present x precision with
    | .error b => (.error (.breakdown b), s)
    | .ok result => (.ok result, s.notify (completed expression result) none)

/-- A notice about a run. -/
def runNotice (level : Level) (subject : Subject) (message run : List Char)
    (context : List (List Char × Value)) (errorCode : Option (List Char)) : Notice where
  level := level
  subject := subject
  message := message
  context := Assoc.update [(runKey, .text run)] context
  errorCode := errorCode

def failedLine (run : List Char) (line : Nat) (kind : FaultKind) : Notice :=
  runNotice .warning .lineError
    ("Line ".toList ++ decimalDigits line ++ " could not be evaluated".toList) run
    [(lineKey, .int line)] (some kind.code)

def exhaustedCode : List Char := "iteration_budget_exhausted".toList

/-- How a run ended, in numbers. -/
def summary (o : Outcome) : List (List Char × Value) := [
  ("iterations".toList, .int o.passes), ("converged".toList, .bool o.converged),
  ("lines".toList, .int o.lineCount), ("variables".toList, .int o.named.length),
  ("calculations".toList, .int o.results.length), ("processing_time_ms".toList, .float 0)]

def closing (run : List Char) (limit : Nat) (o : Outcome) : Notice :=
  if o.converged then
    runNotice .info .documentProcessed
      ("Document processed in ".toList ++ decimalDigits o.passes ++ " pass(es)".toList) run
      (summary o) none
  else
    runNotice .warning .documentExhausted
      ("Document did not settle within ".toList ++ decimalDigits limit ++ " passes".toList) run
      (summary o) (some exhaustedCode)

/-- What is noted about a finished run: its failed lines in order, then its end. -/
def runNotices (run : List Char) (limit : Nat) (o : Outcome) : List Notice :=
  ((Outcome.sortByIndex o.errors).map fun e => failedLine run e.1 e.2) ++ [closing run limit o]

def notifyAll (s : Session) (run : List Char) (notices : List Notice) : Session :=
  notices.foldl (fun s n => s.notify n (some run)) s

/-- Runs a document in a number of passes that is read from data and is at least one. -/
def process (s : Session) (text : List Char) (precision passes : Value) :
    Except Breakdown Outcome × Session :=
  let (run, s) := s.takeRunId
  match passes.toInt with
  | .error b => (.error b, s)
  | .ok n =>
    let limit := (max 1 n).toNat
    match Document.run text precision limit with
    | .error b => (.error b, s)
    | .ok o => (.ok o, s.notifyAll run (runNotices run limit o))

end Session

end Reckoner
