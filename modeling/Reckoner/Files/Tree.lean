import Reckoner.Assoc
import Reckoner.Fault
import Reckoner.Files.Path
import Reckoner.Text.Utf8

/-!
A tree of files as a value. Each entry is known by its names from the root. A path is followed name
by name, so every name but the last must lead to a directory.
-/
namespace Reckoner.Files

open Text

inductive Entry
  | file (content : Utf8.Bytes)
  | directory

structure Tree where
  entries : Assoc (List Name) Entry
  /-- The names that lead from the root to the working directory. -/
  here : List Name

namespace Tree

def empty : Tree := ⟨[], []⟩

/-- The entry with the given names; the root is a directory. -/
def entry? (t : Tree) (names : List Name) : Option Entry :=
  if names.isEmpty then some .directory else Assoc.get? t.entries names

def put (t : Tree) (names : List Name) (e : Entry) : Tree :=
  { t with entries := Assoc.set t.entries names e }

/-- The greatest length of a name in bytes. -/
def nameLimit : Nat := 255

def isTooLong (n : Name) : Bool := nameLimit < (Utf8.encode n).length

/-- Follows names from a directory; the last one need not lead anywhere. -/
def walk (t : Tree) (place : List Name) : List Name → Except FileProblem (List Name)
  | [] => .ok place
  | n :: rest =>
    if n = above then walk t place.dropLast rest
    else if isTooLong n then .error .nameTooLong
    else if rest.isEmpty then .ok (place ++ [n])
    else match t.entry? (place ++ [n]) with
      | some .directory => walk t (place ++ [n]) rest
      | some (.file _) => .error .notDirectory
      | none => .error .missing

def origin (t : Tree) (p : Path) : List Name := if p.absolute then [] else t.here

/-- The names to which a path leads. -/
def locate (t : Tree) (p : Path) : Except FileProblem (List Name) := t.walk (t.origin p) p.names

def find (t : Tree) (p : Path) : Except FileProblem Entry := do
  let names ← t.locate p
  match t.entry? names with
  | some e => return e
  | none => .error .missing

/-- The entry at a path as it is written. -/
def findText (t : Tree) (s : List Char) : Except FileProblem Entry := do
  if s.isEmpty then .error .missing
  else
    let e ← t.find (.ofText s)
    match e with
    | .file _ => if Path.endsVoid s then .error .notDirectory else return e
    | .directory => return e

/-- Whether a path leads to an entry. A path that ends too early leads nowhere. -/
def has (t : Tree) (p : Path) : Except FileProblem Bool :=
  match t.find p with
  | .ok _ => .ok true
  | .error .missing => .ok false
  | .error .notDirectory => .ok false
  | .error problem => .error problem

def read (t : Tree) (p : Path) : Except FileProblem Utf8.Bytes := do
  let e ← t.find p
  match e with
  | .file content => return content
  | .directory => .error .isDirectory

/-- Writes a file, given what becomes of the content it had. -/
def update (t : Tree) (p : Path) (f : Utf8.Bytes → Utf8.Bytes) : Except FileProblem Tree := do
  let names ← t.locate p
  match t.entry? names with
  | some (.file content) => return t.put names (.file (f content))
  | some .directory => .error .isDirectory
  | none => return t.put names (.file (f []))

def append (t : Tree) (p : Path) (bytes : Utf8.Bytes) : Except FileProblem Tree :=
  t.update p (· ++ bytes)

def write (t : Tree) (p : Path) (bytes : Utf8.Bytes) : Except FileProblem Tree :=
  t.update p fun _ => bytes

/-- Makes directories along names, as far as it comes. -/
def ensureFrom (t : Tree) (place : List Name) : List Name → Tree × Option FileProblem
  | [] => (t, none)
  | n :: rest =>
    if n = above then ensureFrom t place.dropLast rest
    else if isTooLong n then (t, some .nameTooLong)
    else match t.entry? (place ++ [n]) with
      | some .directory => ensureFrom t (place ++ [n]) rest
      | some (.file _) => (t, some (if rest.isEmpty then .alreadyThere else .notDirectory))
      | none => ensureFrom (t.put (place ++ [n]) .directory) (place ++ [n]) rest

/-- Makes a directory and those above it, where they are missing. -/
def ensureDirectory (t : Tree) (p : Path) : Tree × Option FileProblem :=
  t.ensureFrom (t.origin p) p.names

/-- The files below a directory, with their names from it. -/
def filesBelow (t : Tree) (p : Path) : List (List Name × Utf8.Bytes) :=
  match t.locate p with
  | .error _ => []
  | .ok names => t.entries.filterMap fun e =>
    match e.2 with
    | .file content =>
      if e.1.take names.length = names then some (e.1.drop names.length, content) else none
    | .directory => none

end Tree

end Reckoner.Files
