import Reckoner.Command.Request
import Reckoner.Journal.RunLog
import Reckoner.Session.Calculation
import Reckoner.Session.Project

/-!
What each command prints and how it ends. Lines are printed without the codes that colour a
terminal. A problem that a user can mend is reported in one line; a breakdown ends the program.
-/
namespace Reckoner.Command

open Text Number Files Data Formula Journal Document

inductive Ending
  | success
  /-- The command reports a problem. -/
  | failure
  /-- The command line is refused. -/
  | refused
  | broken (b : Breakdown)

structure Report where
  session : Session
  output : List Char
  errors : List Char
  ending : Ending

/-- Drops the rest of a colour code after its bracket, if it is one. -/
def afterCode? (s : List Char) : Option (List Char) :=
  match s.dropWhile fun c => c == ';' || c == '?' || isAsciiDigit c with
  | c :: r => if isAsciiLetter c then some r else none
  | [] => none

/-- Drops the codes that colour a terminal; there are no more of them than characters. -/
def dropCodes : Nat → List Char → List Char
  | 0, s => s
  | _ + 1, [] => []
  | fuel + 1, c :: r =>
    match c, r with
    | '\x1b', '[' :: tail =>
      match afterCode? tail with
      | some rest => dropCodes fuel rest
      | none => c :: dropCodes fuel r
    | _, _ => c :: dropCodes fuel r

def printed (line : List Char) : List Char := dropCodes (line.length + 1) line ++ ['\n']

def printedAll (lines : List (List Char)) : List Char := lines.flatMap printed

namespace Report

def warningLines (s : Session) : List Char := s.warnings.lines.flatMap (· ++ ['\n'])

def succeed (s : Session) (lines : List (List Char)) : Report :=
  ⟨s, printedAll lines, warningLines s, .success⟩

def fail (s : Session) (line : List Char) : Report :=
  ⟨s, [], warningLines s ++ printed line, .failure⟩

/-- Reports a problem of the command. -/
def problem (s : Session) (message : List Char) : Report := fail s ("Error: ".toList ++ message)

def crash (s : Session) (lines : List (List Char)) (b : Breakdown) : Report :=
  ⟨s, printedAll lines, warningLines s, .broken b⟩

def refuse (s : Session) : Report := ⟨s, [], [], .refused⟩

/-- Ends with a breakdown, unless it is a fault of the settings file that the user can mend. -/
def settingsFailure (s : Session) : Breakdown → Report
  | .configuration message => problem s message
  | b => crash s [] b

end Report

/-- The settings of a project with the given ones in place of its own. -/
def engineFor (s : Session) (project : Option (List Char)) (precision passes : Option Int) :
    Except Breakdown Engine := do
  let settings ← match project with
    | some p => Settings.load s.tree (.ofText p)
    | none => pure Settings.defaults
  let settings := match precision with
    | some n => Assoc.set settings Settings.precisionKey (.int n)
    | none => settings
  let settings := match passes with
    | some n => Assoc.set settings Settings.passesKey (.int n)
    | none => settings
  Engine.ofSettings settings

/-- Uses the project for the journal, if one is given. -/
def useGiven (s : Session) (project : Option (List Char)) : Except Breakdown Unit × Session :=
  match project with
  | none => (.ok (), s)
  | some p =>
    match s.useProject (.ofText p) with
    | (.ok _, s) => (.ok (), s)
    | (.error b, s) => (.error b, s)

/-- Reads a pair of a key and a number. -/
def readPair (option : String) (item : List Char) : Except (List Char) (List Char × Value) :=
  if item.contains '=' then
    let v := (item.dropWhile (· != '=')).drop 1
    match readFloat v with
    | some x => .ok (trim (item.takeWhile (· != '=')), .float x)
    | none => .error ("Invalid ".toList ++ option.toList ++ " value: ".toList ++ quoted v
        ++ " is not a number.".toList)
  else .error ("Invalid ".toList ++ option.toList ++ " format: ".toList ++ quoted item
    ++ ". Use key=value.".toList)

def readPairs (option : String) :
    List (List Char) → Except (List Char) (List (List Char × Value))
  | [] => .ok []
  | item :: rest => do
    let entry ← readPair option item
    let later ← readPairs option rest
    return entry :: later

/-- The context that the options of an evaluation give. -/
def readContext (named lines : List (List Char)) :
    Except (List Char) (List (List Char × Value)) := do
  let lines ← readPairs "--line" lines
  let named ← readPairs "--var" named
  return [("variables".toList, .map (Assoc.ofList named)),
    ("line_results".toList, .map (Assoc.ofList lines))]

def performInit (s : Session) (directory : List Char) : Report :=
  match Settings.create s.tree (.ofText directory) with
  | (tree, .ok path) => .succeed { s with tree } ["Created ".toList ++ path.text]
  | (tree, .error (.configurationExists d)) =>
    .problem { s with tree } (((Breakdown.configurationExists d).message?).getD [])
  | (tree, .error (.file .alreadyThere)) =>
    .problem { s with tree }
      ("[Errno 17] File exists: ".toList ++ quoted (Path.ofText directory).text)
  | (tree, .error b) => .crash { s with tree } [] b

def performEval (s : Session) (expression : List Char) (named lines : List (List Char))
    (precision : Option Int) (project : Option (List Char)) : Report :=
  match readContext named lines with
  | .error message => .problem s message
  | .ok context =>
    match Scope.ofValue (.map context) with
    | .error (.fault f) => .problem s f.message
    | .error (.breakdown b) => .crash s [] b
    | .ok _ =>
      match engineFor s project precision none with
      | .error b => .settingsFailure s b
      | .ok engine =>
        match useGiven s project with
        | (.error b, s) => .crash s [] b
        | (.ok (), s) =>
          match s.evaluate expression (.map context) (.int engine.precision) defaultDepth with
          | (.ok result, s) => .succeed s [result]
          | (.error (.fault f), s) =>
            .fail s ("Error (".toList ++ f.kind.code ++ "): ".toList ++ f.message)
          | (.error (.breakdown b), s) => .crash s [] b

/-- A line of a document with its result or the kind of its error. -/
def annotated (o : Outcome) (index : Nat) (raw : List Char) : List Char :=
  match Assoc.get? o.displays index with
  | some result => trimRight raw ++ "  => ".toList ++ result
  | none =>
    match Assoc.get? o.errors index with
    | some kind => trimRight raw ++ "  !! ".toList ++ kind.code
    | none => raw

def annotatedLines (o : Outcome) (index : Nat) : List (List Char) → List (List Char)
  | [] => []
  | raw :: rest => annotated o index raw :: annotatedLines o (index + 1) rest

def summaryLine (o : Outcome) : List Char :=
  decimalDigits o.results.length ++ " result(s), ".toList
    ++ decimalDigits o.named.length ++ " variable(s), ".toList
    ++ decimalDigits o.errors.length ++ " error(s); ".toList
    ++ decimalDigits o.passes ++ " pass(es), ".toList
    ++ (if o.converged then "converged".toList else "not converged".toList)

def runLines (o : Outcome) (text : List Char) : List (List Char) :=
  annotatedLines o 1 (splitLines text) ++ [[], summaryLine o]

/-- The text of a file, with its line ends unified. -/
def readText (tree : Tree) (file : List Char) : Except Breakdown (List Char) := do
  let bytes ← Settings.onFile (tree.read (.ofText file))
  match Utf8.decode? bytes with
  | some text => return unifyLineEnds text
  | none => .error .undecodable

def performRun (s : Session) (file : List Char) (project : Option (List Char))
    (precision passes : Option Int) (asJson : Bool) : Report :=
  match engineFor s project precision passes with
  | .error b => .settingsFailure s b
  | .ok engine =>
    match useGiven s project with
    | (.error b, s) => .crash s [] b
    | (.ok (), s) =>
      match readText s.tree file with
      | .error b => .crash s [] b
      | .ok text =>
        match s.process text (.int engine.precision) (.int engine.passes) with
        | (.error b, s) => .crash s [] b
        | (.ok o, s) =>
          .succeed s (if asJson then [Json.writeIndented (o.toValue 0)] else runLines o text)

def padTo (width : Nat) (s : List Char) : List Char := s ++ List.replicate (width - s.length) ' '

def functionLine (f : Function) : List Char :=
  "  ".toList ++ padTo 20 f.signature ++ ' ' :: f.summary

/-- A field of a record as it is shown, or the empty text. -/
def shownField (record : Value) (name : String) : List Char :=
  match record.get? name.toList with
  | some v => v.plain
  | none => []

/-- The line of a record; its level must be a text. -/
def recordLine (record : Value) : Except Breakdown (List Char) := do
  let level ← match record.get? "level".toList with
    | none => pure []
    | some (.text s) => pure s
    | some _ => .error .notAMapping
  let code := (record.get? "error_code".toList).getD .null
  return '[' :: shownField record "ts" ++ "] ".toList ++ padTo 7 (upper level) ++ ' ' ::
    shownField record "event_type" ++ ": ".toList ++ shownField record "message"
    ++ (if code.holds then "  (".toList ++ code.plain ++ [')'] else [])

/-- The lines of records up to the first that has none. -/
def recordLines : List Value → List (List Char) × Option Breakdown
  | [] => ([], none)
  | record :: rest =>
    match recordLine record with
    | .error b => ([], some b)
    | .ok line =>
      let (lines, broken) := recordLines rest
      (line :: lines, broken)

/-- Makes the directories of the log of a project and reads from it. -/
def readingLog {α : Type} (s : Session) (directory : List Char)
    (read : Log → Tree → Except Breakdown α) : Except Breakdown α × Session :=
  let log := Log.ofProject (.ofText directory) false none
  match log.prepare s.tree with
  | (tree, some problem) => (.error (.file problem), { s with tree })
  | (tree, none) => (read log tree, { s with tree })

def performEvents (s : Session) (directory : List Char) (f : Filter) (limit : Int) : Report :=
  match readingLog s directory fun log tree => log.query tree f limit with
  | (.error b, s) => .crash s [] b
  | (.ok [], s) => .succeed s ["No events found.".toList]
  | (.ok records, s) =>
    match recordLines records with
    | (lines, some b) => .crash s lines b
    | (lines, none) => .succeed s lines

/-- The lines after the records of a run: how it ended, and the lines that failed. -/
def runEnd (run : RunLog) : List (List Char) :=
  let outcome := match run.converged? with
    | none => "unknown (no closing event)".toList
    | some true => "converged".toList
    | some false => "not converged".toList
  let failed := run.lineErrors.map fun (n, code) =>
    "  line ".toList ++ Value.decimalInt n ++ ": ".toList ++ code.plain
  [[], "Outcome: ".toList ++ outcome]
    ++ (if failed.isEmpty then [] else "Failing lines:".toList :: failed)

def performRunLog (s : Session) (directory id : List Char) : Report :=
  match readingLog s directory fun log tree => log.readRun tree id with
  | (.error b, s) => .crash s [] b
  | (.ok run, s) =>
    if run.records.isEmpty then .succeed s ["No events found for run ".toList ++ id ++ ['.']]
    else match recordLines run.records with
      | (lines, some b) => .crash s lines b
      | (lines, none) => .succeed s (lines ++ runEnd run)

def versionLine : List Char := "notecalc, version 0.3.0".toList

def helpLine : List Char := "Usage: notecalc [OPTIONS] COMMAND [ARGS]...".toList

/-- Carries out a request in a session that has printed nothing yet. -/
def perform (s : Session) : Request → Report
  | .init directory => performInit s directory
  | .eval expression named lines precision project =>
    performEval s expression named lines precision project
  | .run file project precision passes asJson => performRun s file project precision passes asJson
  | .functions => .succeed s ((FunctionTable.sorted Builtin.table).map functionLine)
  | .events directory level subject run line errorCode limit =>
    performEvents s directory ⟨level, subject, errorCode, run, line⟩ limit
  | .runLog directory id => performRunLog s directory id
  | .version => .succeed s [versionLine]
  | .help => .succeed s [helpLine]

/-- Carries out a command line. -/
def execute (s : Session) (words : List (List Char)) : Report :=
  match Request.read s.tree words with
  | some request => perform s request
  | none => .refuse s

end Reckoner.Command
