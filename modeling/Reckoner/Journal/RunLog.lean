import Reckoner.Journal.Query

/-!
The records of one run, with its failed lines and the record that closes it.
-/
namespace Reckoner.Journal

open Data

structure RunLog where
  records : List Value
  /-- The error code of each failed line. -/
  lineErrors : Assoc Int Value
  outcome : Option Value

namespace RunLog

def isSubject (record : Value) (s : Subject) : Bool :=
  ((record.get? "event_type".toList).getD .null).equalsText s.word

def lineOf? (context : List (List Char × Value)) : Option Int :=
  match Assoc.get? context lineKey with
  | some (.int n) => some n
  | some (.bool b) => some (if b then 1 else 0)
  | _ => none

/-- The error code of a record; what does not hold counts as an empty text. -/
def codeOf (record : Value) : Value :=
  let code := (record.get? "error_code".toList).getD .null
  if code.holds then code else .text []

def add (run : RunLog) (record : Value) : Except Breakdown RunLog :=
  match record with
  | .map _ =>
    if isSubject record .lineError then do
      let context ← Filter.contextOf record
      match lineOf? context with
      | some n => return { run with lineErrors := Assoc.set run.lineErrors n (codeOf record) }
      | none => return run
    else if isSubject record .documentProcessed || isSubject record .documentExhausted then
      .ok { run with outcome := some record }
    else .ok run
  | _ => .error .notAMapping

def addAll (run : RunLog) : List Value → Except Breakdown RunLog
  | [] => .ok run
  | record :: rest => do
    let run ← run.add record
    run.addAll rest

def ofRecords (records : List Value) : Except Breakdown RunLog := do
  let run ← addAll ⟨records, [], none⟩ records
  return { run with lineErrors := run.lineErrors.mergeSort fun a b => a.1 ≤ b.1 }

/-- Whether the run settled, if it came to its end. -/
def converged? (run : RunLog) : Option Bool :=
  run.outcome.map fun record => isSubject record .documentProcessed

end RunLog

/-- The records of a run, oldest first. -/
def Log.readRecords (log : Log) (tree : Files.Tree) (id : List Char) :
    Except Breakdown (List Value) :=
  match log.runFile? id with
  | some p => log.read tree p
  | none => .ok []

def Log.readRun (log : Log) (tree : Files.Tree) (id : List Char) : Except Breakdown RunLog := do
  let records ← log.readRecords tree id
  RunLog.ofRecords records

end Reckoner.Journal
