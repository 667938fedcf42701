import Reckoner.Command.Perform
import Reckoner.Journal.Stamp
import Std.Time.DateTime.Timestamp

/-!
The program. It takes in the files that the words of its command line can lead to, carries out the
command, and writes back what the command added to them.
-/
namespace Reckoner.Program

open Files Journal

def textOf (names : List Name) : String := String.ofList ('/' :: Path.joined names)

/-- What stands at a place on the disk. -/
def entryAt (names : List Name) : IO (Option Entry) := do
  try
    let content ← IO.FS.readBinFile (textOf names)
    return some (.file content.toList)
  catch
    | .inappropriateType .. => return some .directory
    | _ => return none

/-- Takes in the entries along names, as far as they exist. -/
def loadFrom (tree : Tree) (place : List Name) : List Name → IO Tree
  | [] => return tree
  | n :: rest =>
    if n = above then loadFrom tree place.dropLast rest
    else do
      let names := place ++ [n]
      match ← entryAt names with
      | some .directory => loadFrom (tree.put names .directory) names rest
      | some (.file content) => return tree.put names (.file content)
      | none => return tree

def load (tree : Tree) (p : Path) : IO Tree := loadFrom tree (tree.origin p) p.names

/-- The texts in a word that may be paths. -/
def pathTexts (word : List Char) : List (List Char) :=
  word :: (Command.Shape.valueOf? word).toList

/-- The paths that a command line can lead to. -/
def paths (words : List (List Char)) : List Path :=
  let texts := ['.'] :: words.flatMap pathTexts
  texts.flatMap fun s =>
    let p := Path.ofText s
    let log := Log.ofProject p false none
    [p, p.child Settings.fileName, log.eventsFile, log.runsDirectory]
      ++ texts.filterMap log.runFile?

def loadAll (tree : Tree) : List Path → IO Tree
  | [] => return tree
  | p :: rest => do
    let tree ← load tree p
    loadAll tree rest

/-- Writes what an entry has more than the entry that was there before. -/
def store (before : Tree) (names : List Name) (e : Entry) : IO Unit := do
  match e, before.entry? names with
  | .directory, some _ => return
  | .directory, none => IO.FS.createDir (textOf names)
  | .file content, old =>
    let known := match old with
      | some (.file bytes) => bytes.length
      | _ => 0
    let added := content.drop known
    if added.isEmpty && old.isSome then return
    else
      let handle ← IO.FS.Handle.mk (textOf names) .append
      handle.write ⟨added.toArray⟩

def storeAll (before : Tree) : List (List Name × Entry) → IO Unit
  | [] => return
  | (names, e) :: rest => do
    store before names e
    storeAll before rest

def workingDirectory : IO (List Name) := do
  let place ← IO.getEnv "PWD"
  return (Path.ofText ((place.getD "/").toList)).names

def byteNumber (bytes : ByteArray) : Nat := bytes.foldl (fun n b => 256 * n + b.toNat) 0

def newSession (tree : Tree) : IO Session := do
  let now ← Std.Time.Timestamp.now
  let start := now.toNanosecondsSinceUnixEpoch.toInt.toNat / 1000
  let clock ← IO.monoMsNow
  let random ← IO.getRandomBytes 8
  return {
    tree
    log := none
    stampAt := fun n => stampOf (start + n)
    stamped := 0
    runIdAt := fun n => Text.hexDigits 16 (byteNumber random + n)
    started := 0
    warnings := ⟨warningInterval + clock.toFloat / 1000, 0, []⟩ }

def exitCode : Command.Ending → UInt32
  | .success => 0
  | .failure => 1
  | .refused => 2
  | .broken _ => 1

/-- What is printed about the end of a command, after its own lines. -/
def lastWords : Command.Ending → List Char
  | .refused => Command.helpLine ++ ['\n']
  | .broken b => "Error: ".toList ++ (b.message?).getD "cannot go on".toList ++ ['\n']
  | _ => []

end Reckoner.Program

open Reckoner Reckoner.Program in
def main (arguments : List String) : IO UInt32 := do
  let words := arguments.map String.toList
  let here ← workingDirectory
  let tree ← load ⟨[], here⟩ ⟨true, here⟩
  let tree ← loadAll tree (paths words)
  let session ← newSession tree
  let report := Command.execute session words
  storeAll tree report.session.tree.entries
  IO.print (String.ofList report.output)
  IO.eprint (String.ofList (report.errors ++ lastWords report.ending))
  return exitCode report.ending
