import Reckoner.Command.Perform
import Reckoner.Proofs.Session.Project
import Reckoner.Proofs.Yaml.Entries

/-!
Where a setting comes from. A key at the top of the settings file counts before the same key in the
engine block, and the file counts before the defaults. An option of a request counts before all of
them, for each of the two numbers on its own; then the number of places is brought into its range.
-/
namespace Reckoner

open Text Number Files Yaml Data Formula Document Command

namespace Settings

variable {c : Contents} {entries : List (Datum × Nat)} {path directory : Path} {tree : Tree}
  {bytes : Utf8.Bytes}

/-- The node that sets a key in a file: at the top, or else in the engine block. -/
def source? (c : Contents) (key : Key) : Option Nat :=
  (c.child? c.root key).or ((c.child? c.root engineKey).bind fun block => c.child? block key)

/-- Whether settings are those of a file over the defaults. A value is what its node holds, which is
one datum unless the node contains itself. Where it contains the outermost mapping, the engine block
is missing there as well. -/
def Layered (c : Contents) (settings : Settings) : Prop :=
  ∀ key, key ≠ engineKey → ∃ own, Option.Rel (c.takeOut engineKey).2.Holds (source? c key) own ∧
    Assoc.get? settings key = own.or (Assoc.get? defaults key)

theorem rel_or {α β : Type} {r : α → β → Prop} {a a' : Option α} {b b' : Option β}
    (h : Option.Rel r a b) (h' : Option.Rel r a' b') : Option.Rel r (a.or a') (b.or b') := by
  cases h with
  | some h => exact .some h
  | none => exact h'

theorem blockOf_some (d : Datum) : blockOf (some d) = d.entries := by cases d <;> rfl

/-- What the engine block sets is what its entries hold. -/
theorem rel_block {left : Contents} (hproper : left.Proper) (block : Option Nat) (key : Key) :
    Option.Rel left.Holds (block.bind fun b => left.child? b key)
      (Assoc.get? (Datum.keyed (blockOf (block.map left.datumAt))) key) := by
  cases block with
  | none => exact .none
  | some b =>
    rw [Option.map_some, blockOf_some]
    exact left.rel_datumAt hproper b key

theorem nodup_block {left : Contents} (hproper : left.Proper) (block : Option Nat) :
    (Assoc.keys (Datum.keyed (blockOf (block.map left.datumAt)))).Nodup := by
  cases block with
  | none => exact List.nodup_nil
  | some b =>
    rw [Option.map_some, blockOf_some]
    exact left.nodup_datumAt hproper b

theorem get?_withFile {block others : List (Datum × Datum)}
    (hblock : (Assoc.keys (Datum.keyed block)).Nodup)
    (hothers : (Assoc.keys (Datum.keyed others)).Nodup) (key : Key) :
    Assoc.get? (withFile block others) key =
      ((Assoc.get? (Datum.keyed others) key).or (Assoc.get? (Datum.keyed block) key)).or
        (Assoc.get? defaults key) := by
  unfold withFile
  rw [Assoc.get?_update (Assoc.nodup_update hblock _), Assoc.get?_update hothers]

/-- A mapping makes settings over the defaults. -/
theorem layered_of_contents (hproper : c.Proper)
    (h : c.parts[c.root]?.join = some (.map entries)) :
    ∃ settings, ofContents path c = .ok settings ∧ Layered c settings := by
  have hleft : (c.without engineKey entries).Proper := hproper.without engineKey h
  obtain ⟨others, hothers⟩ : ∃ others, (c.without engineKey entries).datum = .map others := by
    have hroot := c.getElem?_without engineKey h c.root
    rw [if_pos rfl] at hroot
    obtain ⟨data, hdatum, -⟩ := Contents.datumAt_map hroot
    exact ⟨_, hdatum⟩
  refine ⟨withFile (blockOf ((c.child? c.root engineKey).map (c.without engineKey entries).datumAt))
    others, ?_, fun key hkey => ?_⟩
  · unfold ofContents
    rw [Contents.takeOut_eq h]
    dsimp only
    rw [hothers]
  · have hown := (c.without engineKey entries).rel_datumAt hleft c.root key
    have hnodup := (c.without engineKey entries).nodup_datumAt hleft c.root
    have hdatum : (c.without engineKey entries).datumAt c.root = .map others := hothers
    rw [hdatum] at hown hnodup
    have hblock := rel_block hleft (c.child? c.root engineKey) key
    have hentry := fun n => Contents.child?_without h n hkey
    simp only [hentry] at hown hblock
    rw [Contents.takeOut_eq h]
    exact ⟨_, rel_or hown hblock, get?_withFile (nodup_block hleft _) hnodup key⟩

theorem proper_of_file (h : contentsOfFile path bytes = .ok c) : c.Proper := by
  unfold contentsOfFile at h
  split at h
  · rename_i s _
    unfold contentsOfText at h
    split at h
    · rename_i c' hread
      obtain rfl := Except.ok.inj h
      exact Contents.proper_of_read hread
    · exact absurd h nofun
    · exact absurd h nofun
  · exact absurd h nofun

theorem load_layered (hread : tree.read (directory.child fileName) = .ok bytes)
    (hcontents : contentsOfFile (directory.child fileName) bytes = .ok c)
    (h : c.parts[c.root]?.join = some (.map entries)) :
    ∃ settings, load tree directory = .ok settings ∧ Layered c settings := by
  rw [load_eq hread]
  unfold ofFile
  rw [hcontents]
  exact layered_of_contents (proper_of_file hcontents) h

end Settings

namespace Command

variable {s : Session} {project : Option (List Char)} {precision passes : Option Int}

/-- The settings of a request: those of its project, or the defaults. -/
def settingsOf (s : Session) : Option (List Char) → Except Breakdown Settings
  | some p => Settings.load s.tree (.ofText p)
  | none => .ok Settings.defaults

/-- A number that a request gives, or else that of a setting. -/
def numberOr (given : Option Int) (setting : Datum) : Except Breakdown Int :=
  match given with
  | some n => .ok n
  | none => Engine.whole setting

/-- The engine of settings and of the numbers that a request gives. -/
def chosenEngine (settings : Settings) (precision passes : Option Int) : Except Breakdown Engine :=
  (numberOr precision settings.precision).bind fun places =>
    (numberOr passes settings.passes).bind fun passes =>
      if passes < 1 then .error (.configuration "max_iterations must be at least 1".toList)
      else .ok ⟨(min (max places 0) 15).toNat, passes⟩

theorem clampPrecision_eq (n : Int) : clampPrecision n = (min (max n 0) 15).toNat := by
  unfold clampPrecision maxPrecision
  omega

/-- The settings with a number that a request gives. -/
def withGiven (settings : Settings) (key : Key) : Option Int → Settings
  | some n => Assoc.set settings key (.int n)
  | none => settings

theorem whole_withGiven (settings : Settings) (key : Key) (given : Option Int) (d : Datum) :
    Engine.whole ((Assoc.get? (withGiven settings key given) key).getD d) =
      numberOr given ((Assoc.get? settings key).getD d) := by
  cases given with
  | none => rfl
  | some n =>
    unfold withGiven
    rw [Assoc.get?_set, if_pos rfl]
    rfl

theorem get?_withGiven (settings : Settings) {key other : Key} (h : key ≠ other)
    (given : Option Int) :
    Assoc.get? (withGiven settings key given) other = Assoc.get? settings other := by
  cases given with
  | none => rfl
  | some n =>
    unfold withGiven
    rw [Assoc.get?_set, if_neg h]

/-- Each number that is given counts before its setting, whatever the other one is. -/
theorem engineFor_eq (s : Session) (project : Option (List Char)) (precision passes : Option Int) :
    engineFor s project precision passes =
      (settingsOf s project).bind fun settings => chosenEngine settings precision passes := by
  have hstep : ∀ settings, Engine.ofSettings (withGiven
      (withGiven settings Settings.precisionKey precision) Settings.passesKey passes) =
        chosenEngine settings precision passes := by
    intro settings
    have hne : Settings.passesKey ≠ Settings.precisionKey := by decide
    rw [Settings.ofSettings_eq]
    unfold Settings.precision Settings.passes
    rw [get?_withGiven _ hne, whole_withGiven, whole_withGiven, get?_withGiven _ hne.symm]
    simp only [clampPrecision_eq]
    rfl
  unfold engineFor
  cases project with
  | none => exact hstep _
  | some p =>
    change ((Settings.load s.tree (.ofText p)).bind fun settings => Engine.ofSettings (withGiven
      (withGiven settings Settings.precisionKey precision) Settings.passesKey passes)) =
        (Settings.load s.tree (.ofText p)).bind _
    simp only [hstep]

/-- The report of a finished run of a text. -/
def Report.ofRun (text : List Char) (asJson : Bool) : Except Breakdown Outcome × Session → Report
  | (.ok o, s) =>
    .succeed s (if asJson then [Json.writeIndented (o.toValue 0)] else runLines o text)
  | (.error b, s) => .crash s [] b

/-- The report of a finished evaluation. -/
def Report.ofEval : Except Failure (List Char) × Session → Report
  | (.ok result, s) => .succeed s [result]
  | (.error (.fault f), s) =>
    .fail s ("Error (".toList ++ f.kind.code ++ "): ".toList ++ f.message)
  | (.error (.breakdown b), s) => .crash s [] b

/-- Whether the requests for a run with the given options use an engine, or fail without one. -/
structure RunUses (s : Session) (project : Option (List Char)) (precision passes : Option Int)
    (engine : Except Breakdown Engine) : Prop where
  refused : ∀ file asJson b, engine = .error b →
    perform s (.run file project precision passes asJson) = .settingsFailure s b
  used : ∀ file asJson e s₁ text, engine = .ok e → useGiven s project = (.ok (), s₁) →
    readText s₁.tree file = .ok text →
      perform s (.run file project precision passes asJson) =
        .ofRun text asJson (s₁.process text (.int e.precision) (.int e.passes))

/-- Whether the requests for an evaluation with the given options use an engine, or fail without
one. -/
structure EvalUses (s : Session) (project : Option (List Char)) (precision : Option Int)
    (engine : Except Breakdown Engine) : Prop where
  refused : ∀ expression named lines context scope b, readContext named lines = .ok context →
    Scope.ofValue (.map context) = .ok scope → engine = .error b →
      perform s (.eval expression named lines precision project) = .settingsFailure s b
  used : ∀ expression named lines context scope e s₁, readContext named lines = .ok context →
    Scope.ofValue (.map context) = .ok scope → engine = .ok e →
      useGiven s project = (.ok (), s₁) →
        perform s (.eval expression named lines precision project) =
          .ofEval (s₁.evaluate expression (.map context) (.int e.precision) defaultDepth)

theorem runUses_engineFor (s : Session) (project : Option (List Char))
    (precision passes : Option Int) :
    RunUses s project precision passes (engineFor s project precision passes) := by
  refine ⟨fun file asJson b hengine => ?_, fun file asJson e s₁ text hengine huse htext => ?_⟩
  · change performRun s file project precision passes asJson = _
    unfold performRun
    rw [hengine]
  · change performRun s file project precision passes asJson = _
    unfold performRun
    rw [hengine, huse]
    dsimp only
    rw [htext]
    dsimp only
    cases s₁.process text (.int e.precision) (.int e.passes) with
    | mk result s₂ => cases result <;> rfl

theorem evalUses_engineFor (s : Session) (project : Option (List Char)) (precision : Option Int) :
    EvalUses s project precision (engineFor s project precision none) := by
  refine ⟨fun expression named lines context scope b hcontext hscope hengine => ?_,
    fun expression named lines context scope e s₁ hcontext hscope hengine huse => ?_⟩
  · change performEval s expression named lines precision project = _
    unfold performEval
    rw [hcontext]
    dsimp only
    rw [hscope, hengine]
  · change performEval s expression named lines precision project = _
    unfold performEval
    rw [hcontext]
    dsimp only
    rw [hscope, hengine]
    dsimp only
    rw [huse]
    dsimp only
    cases s₁.evaluate expression (.map context) (.int e.precision) defaultDepth with
    | mk result s₂ =>
      cases result with
      | ok _ => rfl
      | error failure => cases failure <;> rfl

end Command

open Settings in
/-- A setting is that at the top of the file, or else that in the engine block, or else the default;
runs and evaluations use the numbers they are given, or else those of the settings. -/
theorem Command.options_over_layers :
    (∀ (tree : Tree) (directory : Path) (bytes : Utf8.Bytes) (c : Contents)
      (entries : List (Datum × Nat)), tree.read (directory.child fileName) = .ok bytes →
      contentsOfFile (directory.child fileName) bytes = .ok c →
      c.parts[c.root]?.join = some (.map entries) →
        ∃ settings, load tree directory = .ok settings ∧ Layered c settings) ∧
    ∀ (s : Session) (project : Option (List Char)) (settings : Settings)
      (precision passes : Option Int), settingsOf s project = .ok settings →
        RunUses s project precision passes (chosenEngine settings precision passes) ∧
        EvalUses s project precision (chosenEngine settings precision none) := by
  refine ⟨fun tree directory bytes c entries => load_layered,
    fun s project settings precision passes hsettings => ?_⟩
  have hrun := runUses_engineFor s project precision passes
  have heval := evalUses_engineFor s project precision
  rw [engineFor_eq, hsettings] at hrun heval
  exact ⟨hrun, heval⟩

namespace Command

section Sample

/-- Whether a document sets the number of places to 4. -/
def setsFour (c : Contents) : Bool :=
  match c.parts[c.root]?.join, Settings.source? c Settings.precisionKey with
  | some (.map _), some n =>
    match (c.takeOut Settings.engineKey).2.parts[n]?.join with
    | some (.single (.scalar (.int 4))) => true
    | _ => false
  | _, _ => false

theorem exists_of_setsFour {c : Contents} (h : setsFour c = true) :
    (∃ entries, c.parts[c.root]?.join = some (.map entries)) ∧
      ∃ n, Settings.source? c Settings.precisionKey = some n ∧
        (c.takeOut Settings.engineKey).2.parts[n]?.join = some (.single (.int 4)) := by
  unfold setsFour at h
  split at h
  · rename_i entries n hroot hsource
    split at h
    · rename_i hsingle
      exact ⟨⟨entries, hroot⟩, n, hsource, hsingle⟩
    · exact absurd h Bool.false_ne_true
  · exact absurd h Bool.false_ne_true

open Settings in
/-- The number at the top counts, and no option makes up for a pass too few; an option out of range
is brought into it. -/
theorem options_over_layers_nested :
    let file := "precision: 4\nengine:\n  precision: 7\n  max_iterations: 3\n"
    let s := Session.beside file
    let directory := ['.']
    let tooFew := "max_iterations must be at least 1".toList
    let context := [("variables".toList, Value.map []), ("line_results".toList, .map [])]
    (∃ settings, load s.tree (.ofText directory) = .ok settings ∧
      Assoc.get? settings precisionKey = some (.int 4)) ∧
    perform s (.run ['x'] (some directory) none (some 0) false) =
      .settingsFailure s (.configuration tooFew) ∧
    perform s (.eval "1/3".toList [] [] (some 20) none) =
      .ofEval (s.evaluate "1/3".toList (.map context) (.int 15) defaultDepth) := by
  intro file s directory tooFew context
  have hread : s.tree.read ((Path.ofText directory).child fileName) =
      .ok (Utf8.encode file.toList) := rfl
  have hcheck : ((contentsOfFile ((Path.ofText directory).child fileName)
      (Utf8.encode file.toList)).toOption.any setsFour) = true := by decide +kernel
  have hsettings : ∃ settings, load s.tree (.ofText directory) = .ok settings ∧
      Assoc.get? settings precisionKey = some (.int 4) := by
    cases hcontents : contentsOfFile ((Path.ofText directory).child fileName)
        (Utf8.encode file.toList) with
    | error b =>
      rw [hcontents] at hcheck
      exact absurd hcheck Bool.false_ne_true
    | ok c =>
      rw [hcontents] at hcheck
      obtain ⟨⟨entries, hroot⟩, n, hsource, hsingle⟩ := exists_of_setsFour hcheck
      obtain ⟨settings, hload, hlayered⟩ :=
        options_over_layers.1 s.tree (.ofText directory) _ c entries hread hcontents hroot
      obtain ⟨own, hown, hget⟩ := hlayered precisionKey (by decide)
      rw [hsource] at hown
      cases hown with
      | some hheld => exact ⟨settings, hload, hget.trans (congrArg some (hheld.of_single hsingle))⟩
  obtain ⟨settings, hload, hfour⟩ := hsettings
  refine ⟨⟨settings, hload, hfour⟩, ?_, ?_⟩
  · have hrun := (options_over_layers.2 s (some directory) settings none (some 0) hload).1
    refine hrun.refused _ _ _ ?_
    unfold chosenEngine Settings.precision
    rw [hfour]
    rfl
  · have heval := (options_over_layers.2 s none defaults (some 20) none rfl).2
    exact heval.used _ [] [] context .empty ⟨15, 10⟩ s rfl rfl rfl rfl

end Sample

end Command

end Reckoner
