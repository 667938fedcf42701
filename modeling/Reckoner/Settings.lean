import Reckoner.Files.Tree
import Reckoner.Number.Display
import Reckoner.Yaml.Contents

/-!
The settings of a project. A file may set them, each under its own name or in a block for the
engine; the own name counts first. What the file leaves open has a default.
-/
namespace Reckoner

open Text Number Files Yaml Data

abbrev Settings := Assoc Key Datum

namespace Settings

def fileName : Name := "notecalc.yaml".toList

def precisionKey : Key := .text "precision".toList

def passesKey : Key := .text "max_iterations".toList

def syncKey : Key := .text "logging_fsync".toList

def tailKey : Key := .text "logging_tail_bytes".toList

def engineKey : Key := .text "engine".toList

def defaultPasses : Int := 10

/-- Two megabytes. -/
def defaultTail : Int := 2097152

def defaults : Settings := [
  (precisionKey, .int defaultPrecision), (passesKey, .int defaultPasses),
  (syncKey, .scalar (.bool false)), (tailKey, .int defaultTail)]

/-- The file that a new project starts with. -/
def initialFile : List Char :=
  ("# notecalc engine configuration\n"
    ++ "engine:\n"
    ++ "  precision: 2         # decimal digits shown, clamped to 0-15\n"
    ++ "  max_iterations: 10   # fixed-point passes per document\n"
    ++ "# logging_fsync: false\n").toList

/-- The settings with those of an engine block and then those outside of it in their place. -/
def withFile (block others : List (Datum × Datum)) : Settings :=
  Assoc.update defaults (Assoc.update (Datum.keyed block) (Datum.keyed others))

/-- The entries of an engine block; what is no mapping has none. -/
def blockOf : Option Datum → List (Datum × Datum)
  | some (.map block) => block
  | _ => []

/-- The settings with what a file holds; contents that do not hold set nothing. -/
def ofContents (path : Path) (c : Contents) : Except Breakdown Settings :=
  let (engine, others) := c.takeOut engineKey
  match others.datum with
  | .map others => .ok (withFile (blockOf engine) others)
  | d =>
    if d.holds then .error (.configuration (path.text ++ " must contain a mapping".toList))
    else .ok defaults

def contentsOfText (path : Path) (s : List Char) : Except Breakdown Contents :=
  match Yaml.read (unifyLineEnds s) with
  | .ok c => .ok c
  | .error .malformed => .error (.configuration ("Invalid YAML in ".toList ++ path.text))
  | .error (.breakdown b) => .error b

def contentsOfFile (path : Path) (bytes : Utf8.Bytes) : Except Breakdown Contents :=
  match Utf8.decode? bytes with
  | some s => contentsOfText path s
  | none => .error .undecodable

def onFile {α : Type} (result : Except FileProblem α) : Except Breakdown α :=
  match result with
  | .ok a => .ok a
  | .error problem => .error (.file problem)

/-- What the settings file in a directory holds; a file that is missing holds nothing. -/
def contents (tree : Tree) (directory : Path) : Except Breakdown Contents := do
  let path := directory.child fileName
  let present ← onFile (tree.has path)
  if present then
    let bytes ← onFile (tree.read path)
    contentsOfFile path bytes
  else return .nothing

/-- The settings of the project in a directory. -/
def load (tree : Tree) (directory : Path) : Except Breakdown Settings := do
  let c ← contents tree directory
  ofContents (directory.child fileName) c

/-- Writes the file of a new project; there must be none. -/
def create (tree : Tree) (directory : Path) : Tree × Except Breakdown Path :=
  let path := directory.child fileName
  match tree.has path with
  | .error problem => (tree, .error (.file problem))
  | .ok true => (tree, .error (.configurationExists directory.text))
  | .ok false =>
    match tree.ensureDirectory directory with
    | (tree, some problem) => (tree, .error (.file problem))
    | (tree, none) =>
      match tree.write path (Utf8.encode initialFile) with
      | .ok tree => (tree, .ok path)
      | .error problem => (tree, .error (.file problem))

end Settings

/-- What the engine needs of the settings. -/
structure Engine where
  precision : Nat
  passes : Int
deriving DecidableEq

namespace Engine

/-- A setting as a whole number. An infinite number is no setting at all. -/
def whole (d : Datum) : Except Breakdown Int :=
  match d.toInt with
  | .ok n => .ok n
  | .error (.noWholePart .infinite) => .error (.noWholePart .infinite)
  | .error b => .error (.configuration
      ("precision and max_iterations must be integers: ".toList ++ b.message?.getD []))

/-- The number of places is brought into its range; at least one pass must be allowed. -/
def ofSettings (settings : Settings) : Except Breakdown Engine := do
  let precision ← whole ((Assoc.get? settings Settings.precisionKey).getD (.int defaultPrecision))
  let passes ←
    whole ((Assoc.get? settings Settings.passesKey).getD (.int Settings.defaultPasses))
  if passes < 1 then .error (.configuration "max_iterations must be at least 1".toList)
  else return ⟨clampPrecision precision, passes⟩

end Engine

end Reckoner
