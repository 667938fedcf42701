import Reckoner.Journal.Log

/-!
Searching the log. A filter gives words and context values that a record must have; what it leaves
empty is not looked at. Records come newest first, and no more than a limit of them.
-/
namespace Reckoner.Journal

open Data

structure Filter where
  level : Option (List Char)
  subject : Option (List Char)
  errorCode : Option (List Char)
  run : Option (List Char)
  line : Option Int

namespace Filter

def all : Filter := ⟨none, none, none, none, none⟩

/-- Whether a field of a record is the word asked for; an empty word asks for nothing. -/
def hasWord (record : Value) (name : String) (word : Option (List Char)) : Bool :=
  match word with
  | none => true
  | some w => w.isEmpty || ((record.get? name.toList).getD .null).equalsText w

/-- The context of a record: nothing, or what does not hold, counts as empty. -/
def contextOf (record : Value) : Except Breakdown (List (List Char × Value)) :=
  let context := (record.get? "context".toList).getD .null
  match context with
  | .map entries => .ok entries
  | v => if v.holds then .error .notAMapping else .ok []

def asksContext (f : Filter) : Bool := f.run.isSome || f.line.isSome

def fitsContext (f : Filter) (context : List (List Char × Value)) : Bool :=
  let value (k : List Char) := (Assoc.get? context k).getD .null
  (f.run.all fun s => (value runKey).equalsText s)
    && (f.line.all fun n => (value lineKey).equalsInt n)

/-- Whether a record fits; records that are no mappings cannot be searched. -/
def fits (f : Filter) (record : Value) : Except Breakdown Bool :=
  match record with
  | .map _ =>
    if hasWord record "level" f.level && hasWord record "event_type" f.subject
        && hasWord record "error_code" f.errorCode then
      if f.asksContext then do
        let context ← contextOf record
        return f.fitsContext context
      else .ok true
    else .ok false
  | _ => .error .notAMapping

def select (f : Filter) : List Value → Except Breakdown (List Value)
  | [] => .ok []
  | record :: rest => do
    let fitting ← f.fits record
    let later ← f.select rest
    return if fitting then record :: later else later

end Filter

def queryLimit : Int := 2000

/-- The first `n` items; a negative number drops as many from the end. -/
def takeUpTo {α : Type} (n : Int) (items : List α) : List α :=
  if 0 ≤ n then items.take n.toNat else items.take (items.length - n.natAbs)

/-- The records of all events that fit, newest first. -/
def Log.query (log : Log) (tree : Files.Tree) (f : Filter) (limit : Int) :
    Except Breakdown (List Value) := do
  let records ← log.read tree log.eventsFile
  let found ← f.select records.reverse
  return takeUpTo (min limit queryLimit) found

end Reckoner.Journal
