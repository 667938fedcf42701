import Reckoner.Files.Tree
import Reckoner.Journal.Event
import Reckoner.Json.Reader
import Reckoner.Text.Lines
import Reckoner.Text.Utf8

/-!
The log files of a project. One file holds all events, and each run of a document has a file of its
own, named by the id of the run; an id that is no plain name has no file. Reading looks at the end
of a file only, and passes over lines that hold no data.
-/
namespace Reckoner.Journal

open Text Files Data

structure Log where
  /-- The directory of the log files. -/
  directory : Path
  /-- Whether each record is to be forced to the disk. -/
  sync : Bool
  /-- How many bytes at the end of a file are read. -/
  tail : Int

def defaultTail : Int := 2097152

def isIdChar (c : Char) : Bool :=
  ('a' ≤ c && c ≤ 'z') || ('A' ≤ c && c ≤ 'Z') || ('0' ≤ c && c ≤ '9') || c == '_' || c == '-'

/-- Whether an id is a plain name, which one line feed may follow. -/
def isRunId (id : List Char) : Bool :=
  let name := if id.getLast? = some '\n' then id.dropLast else id
  !name.isEmpty && name.all isIdChar

namespace Log

/-- The log of a project; a tail of no bytes stands for the default. -/
def ofProject (project : Path) (sync : Bool) (tail : Option Int) : Log where
  directory := project.child "logs".toList
  sync := sync
  tail := match tail with
    | some n => if n = 0 then defaultTail else n
    | none => defaultTail

def runsDirectory (log : Log) : Path := log.directory.child "runs".toList

/-- Makes the directories of a log. -/
def prepare (log : Log) (tree : Tree) : Tree × Option FileProblem :=
  tree.ensureDirectory log.runsDirectory

def eventsFile (log : Log) : Path := log.directory.child "events.ndjson".toList

def runFile? (log : Log) (id : List Char) : Option Path :=
  if isRunId id then some (log.runsDirectory.child (id ++ ".ndjson".toList)) else none

/-- The file of a run that is given and has an id that is not empty. -/
def targets (log : Log) (run : Option (List Char)) : List Path :=
  log.eventsFile :: (run.bind log.runFile?).toList

/-- Appends bytes to files in turn, up to the first that cannot be written. -/
def appendAll (tree : Tree) (bytes : Utf8.Bytes) : List Path → Tree × Option FileProblem
  | [] => (tree, none)
  | p :: rest =>
    match tree.append p bytes with
    | .ok tree => appendAll tree bytes rest
    | .error problem => (tree, some problem)

def record (e : Event) : Utf8.Bytes := Utf8.encode (e.written ++ ['\n'])

/-- Writes an event to the file of all events and to the file of its run. -/
def write (log : Log) (tree : Tree) (e : Event) (run : Option (List Char)) :
    Tree × Option FileProblem :=
  appendAll tree (record e) (log.targets run)

/-- The end of a content. Where something is cut off, the first line is not whole. -/
def ending (tail : Int) (content : Utf8.Bytes) : Utf8.Bytes :=
  let start := ((content.length : Int) - tail).toNat
  if start = 0 then content
  else ((content.drop start).dropWhile (· != 10)).drop 1

/-- The values of lines; lines that hold none are passed over. -/
def parseLines : List (List Char) → Except Breakdown (List Value)
  | [] => .ok []
  | line :: rest =>
    if line.all isBlank then parseLines rest
    else match Json.read line with
      | .ok v => do
        let later ← parseLines rest
        return v :: later
      | .error .malformed => parseLines rest
      | .error (.tooManyDigits count) => .error (.tooManyDigits count)

def parse (tail : Int) (content : Utf8.Bytes) : Except Breakdown (List Value) :=
  parseLines (lines (Utf8.decodeLossy (ending tail content)))

/-- The records of a file; one that does not exist has none. -/
def read (log : Log) (tree : Tree) (p : Path) : Except Breakdown (List Value) :=
  match tree.has p with
  | .error problem => .error (.file problem)
  | .ok false => .ok []
  | .ok true =>
    match tree.read p with
    | .error problem => .error (.file problem)
    | .ok content => parse log.tail content

end Log

end Reckoner.Journal
