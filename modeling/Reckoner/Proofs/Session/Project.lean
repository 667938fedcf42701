import Reckoner.Proofs.Files.Directories
import Reckoner.Proofs.Settings
import Reckoner.Session.Project

/-!
Taking a project as the place of the journal. Whatever bytes its settings file has, the log of the
project is in use afterwards; each of its options is that of the file where the file has a usable
one, and the default otherwise. Two things are passed on instead and leave the session as it was: a
breakdown of the reader that is no fault of the settings, and a tail without end.
-/
namespace Reckoner

open Text Files Journal Yaml Data

namespace Files.Tree

variable {t : Tree} {place q names rest : List Name}

/-- No file has the given names. -/
def Vacant (t : Tree) (names : List Name) : Prop := ∀ bytes, t.entry? names ≠ some (.file bytes)

/-- Directories that are there need not be made. -/
theorem ensureFrom_append (h : t.follow? place names = some q) :
    t.ensureFrom place (names ++ rest) = t.ensureFrom q rest := by
  induction names generalizing place with
  | nil =>
    obtain rfl : place = q := Option.some.inj h
    rfl
  | cons n names ih =>
    rw [List.cons_append, ensureFrom]
    rcases follow?_cons.mp h with ⟨hup, h⟩ | ⟨hn, hentry, h⟩
    · rw [if_pos hup, ih h]
    · rw [if_neg hn.1, hn.2, if_neg Bool.false_ne_true, hentry]
      exact ih h

/-- Directories can be made where no file is in the way. -/
theorem ensureFrom_of_vacant (husable : ∀ n ∈ names, Usable n)
    (hvacant : ∀ front, front <+: names → front ≠ [] → t.Vacant (place ++ front)) :
    (t.ensureFrom place names).2 = none := by
  induction names generalizing t place with
  | nil => rfl
  | cons n rest ih =>
    have hn : Usable n := husable n List.mem_cons_self
    have hrest : ∀ m ∈ rest, Usable m := fun m hm => husable m (List.mem_cons_of_mem n hm)
    have hinner : ∀ front, front <+: rest → t.Vacant (place ++ [n] ++ front) := by
      intro front hfront
      rw [List.append_assoc]
      exact hvacant (n :: front) (List.cons_prefix_cons.mpr ⟨rfl, hfront⟩) (List.cons_ne_nil _ _)
    have hfirst : t.Vacant (place ++ [n]) :=
      hvacant [n] (List.cons_prefix_cons.mpr ⟨rfl, List.nil_prefix⟩) (List.cons_ne_nil _ _)
    rw [ensureFrom, if_neg hn.1, hn.2, if_neg Bool.false_ne_true]
    cases hentry : t.entry? (place ++ [n]) with
    | some e =>
      cases e with
      | directory => exact ih hrest fun front hfront _ => hinner front hfront
      | file bytes => exact absurd hentry (hfirst bytes)
    | none =>
      refine ih hrest fun front hfront _ bytes => ?_
      rw [entry?_put (append_name_ne_nil place n)]
      split
      · exact nofun
      · exact hinner front hfront bytes

end Files.Tree

section Numbers

variable {v : Value} {d : Datum} {b : Breakdown}

theorem isSettingsFault_of_value (h : v.toInt = .error b) (hend : b ≠ .noWholePart .infinite) :
    b.isSettingsFault = true := by
  cases v with
  | int n => cases h
  | bool c => cases h
  | float x =>
    rw [Value.toInt] at h
    cases hfinite : Number.Binary.ofFloat? x with
    | some y =>
      rw [hfinite] at h
      cases h
    | none =>
      rw [hfinite] at h
      obtain rfl := Except.error.inj h
      cases hx : Number.unwritable x with
      | infinite => exact absurd (by rw [hx]) hend
      | undefined => rfl
  | text s =>
    rw [Value.toInt] at h
    cases hread : Number.readInteger s with
    | ok n =>
      rw [hread] at h
      cases h
    | error e =>
      rw [hread] at h
      cases e with
      | malformed =>
        obtain rfl := Except.error.inj h
        rfl
      | tooManyDigits count =>
        obtain rfl := Except.error.inj h
        rfl
  | null | list items | map entries =>
    obtain rfl := Except.error.inj h
    rfl

/-- A datum that is no whole number is a fault of the settings, unless it is without end. -/
theorem isSettingsFault_of_toInt (h : d.toInt = .error b) (hend : ¬ Endless d) :
    b.isSettingsFault = true := by
  have hb : b ≠ .noWholePart .infinite := fun hb => hend (toInt_endless_iff.mp (hb ▸ h))
  cases d with
  | scalar v => exact isSettingsFault_of_value h hb
  | bytes s =>
    change Datum.bytesToInt s = _ at h
    unfold Datum.bytesToInt at h
    split at h
    · exact absurd h nofun
    · obtain rfl := Except.error.inj h
      rfl
    · obtain rfl := Except.error.inj h
      rfl
  | time hasClock s | list items | set keys | map entries | loop isMap =>
    obtain rfl := Except.error.inj h
    rfl

end Numbers

namespace Settings

variable {path project : Path} {bytes : Utf8.Bytes} {settings : Settings} {b : Breakdown}

/-- Whether records are to be forced to the disk; without settings they are not. -/
def usableSync : Except Breakdown Settings → Bool
  | .ok settings => (Assoc.get? settings syncKey).any Datum.holds
  | .error _ => false

/-- How many bytes at the end of a file are to be read: the number in the settings, if there is one
and it is not zero. -/
def usableTail : Except Breakdown Settings → Int
  | .ok settings =>
    match (Assoc.get? settings tailKey).map Datum.toInt with
    | some (.ok n) => if n = 0 then Journal.defaultTail else n
    | _ => Journal.defaultTail
  | .error _ => Journal.defaultTail

/-- The log of a project with the usable options of its settings. -/
def logOf (project : Path) (loaded : Except Breakdown Settings) : Log :=
  ⟨project.child "logs".toList, usableSync loaded, usableTail loaded⟩

/-- What taking a project passes on as it is, with the file that leads to it. -/
inductive PassedOn (path : Path) (bytes : Utf8.Bytes) : Breakdown → Prop
  | reader {s : List Char} {b : Breakdown} (hs : Utf8.decode? bytes = some s)
      (h : Yaml.read (unifyLineEnds s) = .error (.breakdown b)) (hb : b.isSettingsFault = false) :
      PassedOn path bytes b
  | tail {settings : Settings} {d : Datum} (hs : ofFile path bytes = .ok settings)
      (hd : Assoc.get? settings tailKey = some d) (h : Endless d) :
      PassedOn path bytes (.noWholePart .infinite)

/-- The options that settings give, or with which a breakdown leaves the log. -/
def options : Except Breakdown Settings → LogOptions
  | .ok settings => .ofSettings settings
  | .error b => ⟨false, none, some b⟩

theorem sync_ofSettings (settings : Settings) :
    (LogOptions.ofSettings settings).sync = usableSync (.ok settings) := by
  change _ = (Assoc.get? settings syncKey).any Datum.holds
  unfold LogOptions.ofSettings
  dsimp only
  split
  · cases Assoc.get? settings syncKey <;> rfl
  · cases Assoc.get? settings syncKey <;> rfl
  · split <;> cases Assoc.get? settings syncKey <;> rfl

/-- The tail of settings is a whole number or is not given; else this is what is wrong. -/
theorem tail_ofSettings (settings : Settings) (project : Path) :
    ((LogOptions.ofSettings settings).problem = none ∧
      ∀ sync, Log.ofProject project sync (LogOptions.ofSettings settings).tail =
        ⟨project.child "logs".toList, sync, usableTail (.ok settings)⟩) ∨
    ∃ d b, Assoc.get? settings tailKey = some d ∧ d.toInt = .error b ∧
      (LogOptions.ofSettings settings).problem = some b := by
  unfold LogOptions.ofSettings usableTail
  dsimp only
  cases hd : Assoc.get? settings tailKey with
  | none => exact Or.inl ⟨rfl, fun _ => rfl⟩
  | some d =>
    split
    · rename_i hnone
      exact absurd hnone nofun
    · rename_i hnull
      rw [Option.some.inj hnull]
      exact Or.inl ⟨rfl, fun _ => rfl⟩
    · rename_i d' _ hsome
      obtain rfl := Option.some.inj hsome
      rw [Option.map_some]
      cases hn : d.toInt with
      | ok n => exact Or.inl ⟨rfl, fun _ => rfl⟩
      | error b => exact Or.inr ⟨d, b, rfl, hn, rfl⟩

/-- Where a file leaves nothing wrong, its options are the usable ones. -/
theorem log_of_no_problem {loaded : Except Breakdown Settings}
    (h : (options loaded).problem = none) :
    Log.ofProject project (options loaded).sync (options loaded).tail = logOf project loaded := by
  cases loaded with
  | error b => exact absurd h nofun
  | ok settings =>
    change (LogOptions.ofSettings settings).problem = none at h
    obtain ⟨_, hlog⟩ | ⟨d, b, _, _, hb⟩ := tail_ofSettings settings project
    · unfold logOf
      rw [← sync_ofSettings]
      exact hlog _
    · rw [h] at hb
      exact absurd hb nofun

/-- Where it leaves something wrong, so are they once the tail is left out. -/
theorem log_of_problem {loaded : Except Breakdown Settings}
    (h : (options loaded).problem = some b) :
    Log.ofProject project (options loaded).sync none = logOf project loaded := by
  cases loaded with
  | error b => rfl
  | ok settings =>
    change (LogOptions.ofSettings settings).problem = some b at h
    obtain ⟨hnone, _⟩ | ⟨d, b', hd, hb', _⟩ := tail_ofSettings settings project
    · rw [hnone] at h
      exact absurd h nofun
    · have htail : usableTail (.ok settings) = Journal.defaultTail := by
        unfold usableTail
        dsimp only
        rw [hd, Option.map_some, hb']
      unfold logOf
      rw [htail, ← sync_ofSettings]
      rfl

theorem problem_of_endless {d : Datum} (hd : Assoc.get? settings tailKey = some d)
    (h : Endless d) :
    (LogOptions.ofSettings settings).problem = some (.noWholePart .infinite) := by
  have hnumber := toInt_of_endless h
  unfold LogOptions.ofSettings
  dsimp only
  rw [hd]
  split
  · rename_i hnone
    exact absurd hnone nofun
  · rename_i hnull
    rw [Option.some.inj hnull] at h
    exact h.elim
  · rename_i d' _ hsome
    rw [← Option.some.inj hsome, hnumber]

/-- A file that makes no settings is at fault, or the reader broke down. -/
theorem ofFile_error (h : ofFile path bytes = .error b) : b.isSettingsFault = true ∨
    ∃ s, Utf8.decode? bytes = some s ∧ Yaml.read (unifyLineEnds s) = .error (.breakdown b) := by
  unfold ofFile contentsOfFile at h
  cases hs : Utf8.decode? bytes with
  | none =>
    rw [hs] at h
    obtain rfl := Except.error.inj h
    exact Or.inl rfl
  | some s =>
    rw [hs] at h
    unfold contentsOfText at h
    dsimp only at h
    cases hread : Yaml.read (unifyLineEnds s) with
    | ok c =>
      rw [hread] at h
      obtain ⟨settings, hc⟩ | ⟨m, hc⟩ := ofContents_outcome path c
      · exact absurd (hc.symm.trans h) nofun
      · obtain rfl := Except.error.inj (hc.symm.trans h)
        exact Or.inl rfl
    | error trouble =>
      rw [hread] at h
      cases trouble with
      | malformed =>
        obtain rfl := Except.error.inj h
        exact Or.inl rfl
      | breakdown b' =>
        obtain rfl := Except.error.inj h
        exact Or.inr ⟨s, rfl, hread⟩

/-- What is passed on is what is wrong with the options and is no fault of the settings. -/
theorem passedOn_iff : PassedOn path bytes b ↔
    (options (ofFile path bytes)).problem = some b ∧ b.isSettingsFault = false := by
  constructor
  · rintro (⟨hs, hread, hb⟩ | ⟨hs, hd, hend⟩)
    · have hfile : ofFile path bytes = .error b := by
        unfold ofFile contentsOfFile
        rw [hs]
        unfold contentsOfText
        dsimp only
        rw [hread]
        rfl
      rw [hfile]
      exact ⟨rfl, hb⟩
    · rw [hs]
      exact ⟨problem_of_endless hd hend, rfl⟩
  · rintro ⟨hproblem, hb⟩
    cases hs : ofFile path bytes with
    | error b' =>
      rw [hs] at hproblem
      obtain rfl : b' = b := Option.some.inj hproblem
      obtain hfault | ⟨s, hdecode, hread⟩ := ofFile_error hs
      · exact absurd (hfault.symm.trans hb) nofun
      · exact .reader hdecode hread hb
    | ok settings =>
      rw [hs] at hproblem
      change (LogOptions.ofSettings settings).problem = some b at hproblem
      obtain ⟨hnone, _⟩ | ⟨d, b', hd, hnumber, hsome⟩ := tail_ofSettings settings path
      · exact absurd (hnone.symm.trans hproblem) nofun
      · obtain rfl : b' = b := Option.some.inj (hsome.symm.trans hproblem)
        by_cases hend : Endless d
        · obtain rfl : b' = .noWholePart .infinite :=
            Except.error.inj (hnumber.symm.trans (toInt_of_endless hend))
          exact .tail hs hd hend
        · exact absurd ((isSettingsFault_of_toInt hnumber hend).symm.trans hb) nofun

end Settings

namespace Session

variable {s : Session} {project : Path} {bytes : Utf8.Bytes}

/-- The names of the directories of a log, from the project on. -/
def logNames : List Name := ["logs".toList, "runs".toList]

/-- In the project no file is where the directories of its log are to be. -/
def Writable (t : Tree) (project : Path) : Prop :=
  ∀ q, t.directory? project = some q →
    ∀ front, front <+: logNames → front ≠ [] → t.Vacant (q ++ front)

theorem load_options (h : s.tree.read (project.child Settings.fileName) = .ok bytes) :
    LogOptions.load s.tree project =
      Settings.options (Settings.ofFile (project.child Settings.fileName) bytes) := by
  unfold LogOptions.load
  rw [Settings.load_eq h]
  cases Settings.ofFile (project.child Settings.fileName) bytes <;> rfl

/-- The directories of a log are made where no file is in the way. -/
theorem prepare_of_writable (h : s.tree.read (project.child Settings.fileName) = .ok bytes)
    (hwritable : Writable s.tree project) (log : Log)
    (hlog : log.directory = project.child "logs".toList) :
    ∃ tree, log.prepare s.tree = (tree, none) ∧
      ∃ q, tree.directory? log.runsDirectory = some q := by
  obtain ⟨names, hlocate, _⟩ := Tree.exists_place h
  obtain ⟨q, hq, _⟩ := Tree.exists_directory_of_locate (by decide) hlocate
  have hnames : log.runsDirectory.names = project.names ++ logNames := by
    unfold Log.runsDirectory
    rw [hlog]
    exact List.append_assoc _ _ _
  have horigin : s.tree.origin log.runsDirectory = s.tree.origin project := by
    unfold Tree.origin Log.runsDirectory
    rw [hlog]
    rfl
  have hproblem : (log.prepare s.tree).2 = none := by
    unfold Log.prepare Tree.ensureDirectory
    rw [hnames, horigin, Tree.ensureFrom_append hq]
    exact Tree.ensureFrom_of_vacant (by decide) (hwritable q hq)
  refine ⟨(log.prepare s.tree).1, Prod.ext rfl hproblem, ?_⟩
  exact Tree.exists_directory_of_ensureDirectory (Prod.ext rfl hproblem)

theorem openLog_of_writable (h : s.tree.read (project.child Settings.fileName) = .ok bytes)
    (hwritable : Writable s.tree project) (sync : Bool) (tail : Option Int) :
    ∃ tree, s.openLog project sync tail = (.ok (Log.ofProject project sync tail),
        { s with tree, log := some (Log.ofProject project sync tail) }) ∧
      ∃ q, tree.directory? (Log.ofProject project sync tail).runsDirectory = some q := by
  obtain ⟨tree, hprepare, hdirectory⟩ :=
    prepare_of_writable h hwritable (Log.ofProject project sync tail) rfl
  refine ⟨tree, ?_, hdirectory⟩
  unfold openLog
  dsimp only
  rw [hprepare]

/-- The log of a writable project is in use after any settings file, with its usable options, unless
something is passed on; then the session is as it was. -/
theorem useProject_outcome (s : Session) (project : Path) (bytes : Utf8.Bytes)
    (h : s.tree.read (project.child Settings.fileName) = .ok bytes)
    (hwritable : Writable s.tree project) :
    (∀ b, Settings.PassedOn (project.child Settings.fileName) bytes b →
      s.useProject project = (.error b, s)) ∧
    ((∀ b, ¬ Settings.PassedOn (project.child Settings.fileName) bytes b) →
      ∃ log tree warnings,
        s.useProject project = (.ok log, { s with tree, warnings, log := some log }) ∧
        log = Settings.logOf project (Settings.ofFile (project.child Settings.fileName) bytes) ∧
        ∃ q, tree.directory? log.runsDirectory = some q) := by
  simp only [Settings.passedOn_iff]
  unfold useProject
  rw [load_options h]
  dsimp only
  cases hproblem : (Settings.options
      (Settings.ofFile (project.child Settings.fileName) bytes)).problem with
  | none =>
    refine ⟨fun b hb => absurd hb.1 nofun, fun _ => ?_⟩
    dsimp only
    obtain ⟨tree, hopen, hdirectory⟩ := openLog_of_writable h hwritable _ _
    exact ⟨_, tree, s.warnings, hopen, Settings.log_of_no_problem hproblem, hdirectory⟩
  | some b =>
    by_cases hfault : b.isSettingsFault = true
    · refine ⟨fun b' hb' => ?_, fun _ => ?_⟩
      · obtain rfl := Option.some.inj hb'.1
        exact absurd (hfault.symm.trans hb'.2) nofun
      · dsimp only
        rw [if_pos hfault]
        have hwarned : (s.warn "could not read logging options; using defaults").tree.read
            (project.child Settings.fileName) = .ok bytes := h
        obtain ⟨tree, hopen, hdirectory⟩ := openLog_of_writable hwarned hwritable _ none
        exact ⟨_, tree, _, hopen, Settings.log_of_problem hproblem, hdirectory⟩
    · have hother : b.isSettingsFault = false := Bool.eq_false_iff.mpr hfault
      refine ⟨fun b' hb' => ?_, fun hnone => absurd ⟨rfl, hother⟩ (hnone b)⟩
      obtain rfl := Option.some.inj hb'.1
      dsimp only
      rw [if_neg hfault]

section Sample

open Settings

/-- A session whose working directory holds a settings file and nothing else. -/
def beside (settingsFile : String) : Session where
  tree := ⟨[([Settings.fileName], .file (Utf8.encode settingsFile.toList))], []⟩
  log := none
  stampAt := fun _ => []
  stamped := 0
  runIdAt := fun _ => []
  started := 0
  warnings := ⟨1000000, 0, []⟩

theorem writable_beside (settingsFile : String) :
    Writable (beside settingsFile).tree (Path.ofText ['.']) := by
  intro q hq front hfront hne bytes hentry
  obtain rfl : [] = q := Option.some.inj hq
  have hfirst : front.head? = some "logs".toList := by
    rcases List.prefix_cons_iff.mp hfront with rfl | ⟨rest, rfl, _⟩
    · exact absurd rfl hne
    · rfl
  have hnone : Tree.entry? (beside settingsFile).tree front = none := by
    have hother : [Settings.fileName] ≠ front := by
      rintro rfl
      exact absurd hfirst (by decide)
    unfold Tree.entry?
    rw [if_neg fun hempty => hne (List.isEmpty_iff.mp hempty)]
    exact if_neg hother
  exact absurd (hnone.symm.trans hentry) nofun

/-- A tail without end is passed on; one that is no number is not, and the other option is kept. -/
theorem useProject_endlessTail :
    let endless := "logging_tail_bytes: .inf\n"
    let misspelt := "logging_fsync: yes\nlogging_tail_bytes: many\n"
    let project := Path.ofText ['.']
    ((beside endless).tree.read (project.child Settings.fileName) =
        .ok (Utf8.encode endless.toList) ∧
      Writable (beside endless).tree project ∧
      (beside endless).useProject project = (.error (.noWholePart .infinite), beside endless)) ∧
    ((beside misspelt).tree.read (project.child Settings.fileName) =
        .ok (Utf8.encode misspelt.toList) ∧
      Writable (beside misspelt).tree project ∧
      ((beside misspelt).useProject project).1 =
        .ok ⟨project.child "logs".toList, true, Journal.defaultTail⟩) := by
  intro endless misspelt project
  refine ⟨⟨rfl, writable_beside endless, ?_⟩, rfl, writable_beside misspelt, ?_⟩
  · have hcheck : ((ofFile (project.child fileName) (Utf8.encode endless.toList)).toOption.any
        fun settings => (Assoc.get? settings tailKey).any fun d => decide (Endless d)) = true := by
      decide +kernel
    refine (useProject_outcome _ project _ rfl (writable_beside endless)).1 _ ?_
    cases hs : ofFile (project.child fileName) (Utf8.encode endless.toList) with
    | error b =>
      rw [hs] at hcheck
      exact absurd hcheck Bool.false_ne_true
    | ok settings =>
      rw [hs] at hcheck
      change (Assoc.get? settings tailKey).any _ = true at hcheck
      obtain ⟨d, hd, hend⟩ := (Option.any_eq_true _ _).mp hcheck
      exact .tail hs hd (of_decide_eq_true hend)
  · have hcheck : (options (ofFile (project.child fileName)
        (Utf8.encode misspelt.toList))).problem.all Breakdown.isSettingsFault = true := by
      decide +kernel
    have hsync : usableSync (ofFile (project.child fileName) (Utf8.encode misspelt.toList)) =
        true := by decide +kernel
    have htail : usableTail (ofFile (project.child fileName) (Utf8.encode misspelt.toList)) =
        Journal.defaultTail := by decide +kernel
    obtain ⟨log, tree, warnings, huse, hoptions, _⟩ :=
      (useProject_outcome _ project _ rfl (writable_beside misspelt)).2 fun b hb => by
        obtain ⟨hproblem, hfault⟩ := passedOn_iff.mp hb
        rw [hproblem] at hcheck
        exact absurd (hfault.symm.trans hcheck) Bool.false_ne_true
    rw [huse, hoptions, logOf, hsync, htail]

end Sample

end Session

end Reckoner
