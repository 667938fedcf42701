import Reckoner.Command.Options
import Reckoner.Files.Tree
import Reckoner.Journal.Event
import Reckoner.Number.Reading

/-!
What a command line asks for. A command line is refused as a whole when a word of it is unknown, a
number is no number, or a file or directory that must exist does not.
-/
namespace Reckoner.Command

open Files Number Journal

inductive Request
  | init (directory : List Char)
  | eval (expression : List Char) (named lines : List (List Char)) (precision : Option Int)
      (project : Option (List Char))
  | run (file : List Char) (project : Option (List Char)) (precision passes : Option Int)
      (asJson : Bool)
  | functions
  | events (directory : List Char) (level subject run : Option (List Char)) (line : Option Int)
      (errorCode : Option (List Char)) (limit : Int)
  | runLog (directory id : List Char)
  | version
  | help

namespace Request

/-- An option that must be a whole number if it is given. -/
def number (w : Words) (name : String) : Option (Option Int) :=
  match w.value? name with
  | none => some none
  | some s =>
    match readInteger s with
    | .ok n => some (some n)
    | .error _ => none

def isDirectory (tree : Tree) (s : List Char) : Bool :=
  match tree.findText s with
  | .ok .directory => true
  | _ => false

def isFile (tree : Tree) (s : List Char) : Bool :=
  match tree.findText s with
  | .ok (.file _) => true
  | _ => false

def isEntry (tree : Tree) (s : List Char) : Bool :=
  match tree.findText s with
  | .ok _ => true
  | .error _ => false

/-- The project option, which must name a directory if it is given. -/
def project (tree : Tree) (w : Words) : Option (Option (List Char)) :=
  match w.value? "--project" with
  | none => some none
  | some s => if isDirectory tree s then some (some s) else none

def level (w : Words) : Option (Option (List Char)) :=
  match w.value? "--level" with
  | none => some none
  | some s => (Level.ofWord? s).map fun l => some l.word

def readInit (w : Words) : Option Request :=
  match w.arguments with
  | [] => some (.init ['.'])
  | [directory] => some (.init directory)
  | _ => none

def readEval (tree : Tree) (w : Words) : Option Request :=
  match w.arguments with
  | [expression] => do
    let precision ← number w "--precision"
    let project ← project tree w
    return .eval expression (w.values "--var") (w.values "--line") precision project
  | _ => none

def readRun (tree : Tree) (w : Words) : Option Request :=
  match w.arguments with
  | [file] => do
    let project ← project tree w
    let precision ← number w "--precision"
    let passes ← number w "--max-iterations"
    if isFile tree file then return .run file project precision passes (w.has "--json") else none
  | _ => none

def readFunctions (w : Words) : Option Request :=
  if w.arguments.isEmpty then some .functions else none

def defaultLimit : Int := 100

def readEvents (tree : Tree) (w : Words) : Option Request :=
  match w.arguments with
  | [directory] => do
    let level ← level w
    let line ← number w "--line"
    let limit ← number w "--limit"
    if isEntry tree directory then
      return .events directory level (w.value? "--type") (w.value? "--run-id") line
        (w.value? "--error-code") (limit.getD defaultLimit)
    else none
  | _ => none

def readRunLog (tree : Tree) (w : Words) : Option Request :=
  match w.arguments with
  | [directory, id] => if isEntry tree directory then some (.runLog directory id) else none
  | _ => none

/-- The options and flags of each command, and how its words are read. -/
def commands (tree : Tree) : List (String × List String × List String × (Words → Option Request)) :=
  [("init", [], [], readInit),
    ("eval", ["--var", "--line", "--precision", "--project"], [], readEval tree),
    ("run", ["--project", "--precision", "--max-iterations"], ["--json"], readRun tree),
    ("functions", [], [], readFunctions),
    ("events", ["--level", "--type", "--run-id", "--line", "--error-code", "--limit"], [],
      readEvents tree),
    ("run-log", [], [], readRunLog tree)]

/-- Reads the words after the name of a command. -/
def readCommand (tree : Tree) (name : List Char) (rest : List (List Char)) : Option Request := do
  let (_, options, flags, read) ← (commands tree).find? fun c => c.1.toList == name
  let words ← Shape.split ⟨options, "--help" :: flags⟩ rest
  if words.has "--help" then return .help else read words

/-- Skips flags before the name of the command; those skipped and the words from the name on. -/
def leadingFlags : List (List Char) → Option (List (List Char) × List (List Char))
  | [] => some ([], [])
  | word :: rest =>
    if word = Shape.separator then some ([], rest)
    else if !Shape.isOption word then some ([], word :: rest)
    else if word = "--version".toList || word = "--help".toList then
      (leadingFlags rest).map fun (flags, rest) => (word :: flags, rest)
    else none

/-- Reads a command line; `none` when it is refused. -/
def read (tree : Tree) (words : List (List Char)) : Option Request := do
  let (flags, rest) ← leadingFlags words
  match flags, rest with
  | flag :: _, _ => return if flag = "--version".toList then .version else .help
  | [], [] => none
  | [], name :: rest => readCommand tree name rest

end Request

end Reckoner.Command
