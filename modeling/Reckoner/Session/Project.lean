import Reckoner.Session.Basic
import Reckoner.Settings

/-!
Taking a project as the place of the journal. Its settings say how the log is kept; where they
cannot be read, a warning is printed and the log is kept in the default way.
-/
namespace Reckoner

open Data Files Journal Yaml

/-- Breakdowns that count as a fault of the settings. -/
def Breakdown.isSettingsFault : Breakdown → Bool
  | .configuration _ => true
  | .undecodable => true
  | .malformedInteger _ _ => true
  | .malformedBytes _ => true
  | .malformedNumber _ => true
  | .tooManyDigits _ => true
  | .notNumeric _ => true
  | .noWholePart .undefined => true
  | .noTime _ => true
  | .noCharacter => true
  | .unreadable .noTimeText => true
  | _ => false

/-- How a log is kept, and what went wrong when this was read. -/
structure LogOptions where
  sync : Bool
  tail : Option Int
  problem : Option Breakdown

namespace LogOptions

def ofSettings (settings : Settings) : LogOptions :=
  let sync := match Assoc.get? settings Settings.syncKey with
    | some d => d.holds
    | none => false
  match Assoc.get? settings Settings.tailKey with
  | none => ⟨sync, none, none⟩
  | some (.scalar .null) => ⟨sync, none, none⟩
  | some d =>
    match d.toInt with
    | .ok n => ⟨sync, some n, none⟩
    | .error b => ⟨sync, none, some b⟩

def load (tree : Tree) (project : Path) : LogOptions :=
  match Settings.load tree project with
  | .ok settings => ofSettings settings
  | .error b => ⟨false, none, some b⟩

end LogOptions

namespace Session

/-- Opens the log of a project and uses it from now on. -/
def openLog (s : Session) (project : Path) (sync : Bool) (tail : Option Int) :
    Except Breakdown Log × Session :=
  let log := Log.ofProject project sync tail
  match log.prepare s.tree with
  | (tree, none) => (.ok log, { s with tree, log := some log })
  | (tree, some problem) => (.error (.file problem), { s with tree })

/-- Opens the log of a project as its settings say. -/
def useProject (s : Session) (project : Path) : Except Breakdown Log × Session :=
  let options := LogOptions.load s.tree project
  match options.problem with
  | none => s.openLog project options.sync options.tail
  | some b =>
    if b.isSettingsFault then
      (s.warn "could not read logging options; using defaults").openLog project options.sync none
    else (.error b, s)

def closeLog (s : Session) : Session := { s with log := none }

end Session

end Reckoner
