import Reckoner.Document.Line
import Reckoner.Formula.Evaluate

/-!
One pass over a document. Each line that asks for something is evaluated in order, against the
values that the pass has reached and, where it has not come by yet, those of the pass before. A
line that fails loses its result. At the end a name keeps its value only if some line assigned it
in this pass.
-/
namespace Reckoner.Document

open Formula

/-- The values of names and lines after a pass. -/
structure Standing where
  named : Assoc (List Char) Float
  results : Assoc Nat Float

def Standing.empty : Standing := ⟨[], []⟩

/-- A pass under way: the standing so far, the names assigned in this pass and the failed lines. -/
structure Progress where
  standing : Standing
  assigned : List (List Char)
  errors : Assoc Nat FaultKind

/-- The names that a document assigns. -/
def declared (doc : List Line) : List (List Char) := doc.filterMap (·.form.name?)

/-- The scope of a line: names that are declared and have no value yet are pending. -/
def Standing.scope (standing : Standing) (names : List (List Char)) : Scope :=
  ⟨standing.named, standing.results.map fun e => (Int.ofNat e.1, e.2),
    names.filter fun n => !Assoc.has standing.named n⟩

def Progress.fail (p : Progress) (index : Nat) (kind : FaultKind) : Progress :=
  { p with
    standing := ⟨p.standing.named, Assoc.erase p.standing.results index⟩
    errors := Assoc.set p.errors index kind }

def Progress.succeed (p : Progress) (line : Line) (x : Float) : Progress :=
  let results := Assoc.set p.standing.results line.index x
  match line.form.name? with
  | some name =>
    { p with
      standing := ⟨Assoc.set p.standing.named name x, results⟩
      assigned := name :: p.assigned }
  | none => { p with standing := ⟨p.standing.named, results⟩ }

/-- Evaluates one line; a breakdown ends the pass. -/
def Progress.step (names : List (List Char)) (depth : Nat) (p : Progress) (line : Line) :
    Except Breakdown Progress :=
  if line.form = .blank then .ok p
  else
    match evaluate Builtin.table depth (p.standing.scope names) line.form.expression with
    | .ok x => .ok (p.succeed line x)
    | .error (.fault f) => .ok (p.fail line.index f.kind)
    | .error (.breakdown b) => .error b

def Progress.run (names : List (List Char)) (depth : Nat) :
    Progress → List Line → Except Breakdown Progress
  | p, [] => .ok p
  | p, line :: rest => do
    let p ← p.step names depth line
    Progress.run names depth p rest

/-- The standing after a pass, and the lines that failed in it. -/
structure PassResult where
  standing : Standing
  errors : Assoc Nat FaultKind

def pass (doc : List Line) (depth : Nat) (standing : Standing) : Except Breakdown PassResult := do
  let p ← Progress.run (declared doc) depth ⟨standing, [], []⟩ doc
  let kept := p.standing.named.filter fun e => p.assigned.contains e.1
  return ⟨⟨kept, p.standing.results⟩, p.errors⟩

/-- Whether two maps have the same keys with equal numbers; zeros of either sign are equal. -/
def sameNumbers {κ : Type} [DecidableEq κ] (a b : Assoc κ Float) : Bool :=
  a.length == b.length && a.all fun e =>
    match Assoc.get? b e.1 with
    | some y => e.2 == y
    | none => false

def Standing.agrees (s t : Standing) : Bool :=
  sameNumbers s.named t.named && sameNumbers s.results t.results

end Reckoner.Document
