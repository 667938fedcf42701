import Reckoner.Data.Presentation
import Reckoner.Document.Pass

/-!
Runs of a document. Passes are made until one changes nothing or the allowed number is used up; the
same number bounds how deep calls may nest. The outcome lists results, names and errors in order.
-/
namespace Reckoner.Document

open Text Number Formula Data

structure Settled where
  result : PassResult
  passes : Nat
  converged : Bool

/-- Makes up to `left` passes from a standing, of which `made` have been made already. -/
def settle (doc : List Line) (depth : Nat) (made : Nat) (previous : PassResult) :
    Nat → Except Breakdown Settled
  | 0 => .ok ⟨previous, made, false⟩
  | left + 1 => do
    let next ← pass doc depth previous.standing
    if next.standing.agrees previous.standing then return ⟨next, made + 1, true⟩
    else settle doc depth (made + 1) next left

/-- The passes of a run one by one, up to the first that changes nothing; a breakdown ends them. -/
def passes (doc : List Line) (depth : Nat) (previous : Standing) :
    Nat → List PassResult × Option Breakdown
  | 0 => ([], none)
  | left + 1 =>
    match pass doc depth previous with
    | .error b => ([], some b)
    | .ok next =>
      if next.standing.agrees previous then ([next], none)
      else
        let (later, broken) := passes doc depth next.standing left
        (next :: later, broken)

structure Outcome where
  results : Assoc Nat Float
  named : Assoc (List Char) Float
  passes : Nat
  converged : Bool
  errors : Assoc Nat FaultKind
  precision : Nat
  /-- The number of lines that are not blank. -/
  lineCount : Nat

namespace Outcome

def sortByIndex {α : Type} (entries : List (Nat × α)) : List (Nat × α) :=
  entries.mergeSort fun a b => a.1 ≤ b.1

/-- The displayed results. -/
def displays (o : Outcome) : List (Nat × List Char) :=
  o.results.map fun e => (e.1, (display e.2 o.precision).getD [])

def indexKey (index : Nat) : List Char := decimalDigits index

/-- The outcome as data; `milliseconds` is the time the run took. -/
def toValue (o : Outcome) (milliseconds : Float) : Value :=
  .map [
    ("results".toList, .map (o.results.map fun e => (indexKey e.1, .float e.2))),
    ("variables".toList, .map (o.named.map fun e => (e.1, .float e.2))),
    ("display".toList, .map (o.displays.map fun e => (indexKey e.1, .text e.2))),
    ("errors".toList, .map (o.errors.map fun e => (indexKey e.1, .text e.2.code))),
    ("iterations".toList, .int o.passes),
    ("converged".toList, .bool o.converged),
    ("precision".toList, .int o.precision),
    ("stats".toList, .map [
      ("lines".toList, .int o.lineCount),
      ("variables".toList, .int o.named.length),
      ("calculations".toList, .int o.results.length),
      ("processing_time_ms".toList, .float milliseconds)])]

/-- The outcome on one line, for messages. -/
def shown (o : Outcome) : List Char :=
  let results := o.results.map fun e => indexKey e.1 ++ ':' :: ' ' :: Number.shown e.2
  "DocumentResult(results=\x7b".toList ++ Value.commaSeparated results
    ++ "\x7d, variables=".toList ++ (Value.map (o.named.map fun e => (e.1, .float e.2))).shown
    ++ ", iterations=".toList ++ decimalDigits o.passes
    ++ ", converged=".toList ++ (Value.bool o.converged).shown ++ [')']

end Outcome

/-- Runs a document from empty standing in at most `limit` passes. -/
def run (s : List Char) (precision : Value) (limit : Nat) : Except Breakdown Outcome := do
  let doc := ofText s
  let settled ← settle doc limit 0 ⟨.empty, []⟩ limit
  let precision ← places precision
  let standing := settled.result.standing
  return {
    results := Outcome.sortByIndex standing.results
    named := sortByKey standing.named
    passes := settled.passes
    converged := settled.converged
    errors := settled.result.errors
    precision
    lineCount := doc.countP fun line => !line.raw.all Text.isBlank }

/-- Runs a document whose number of passes has been given from outside; it must be positive. -/
def runChecked (s : List Char) (precision : Value) (limit : Int) : Except Breakdown Outcome :=
  if limit < 1 then .error .noPasses else run s precision limit.toNat

end Reckoner.Document
