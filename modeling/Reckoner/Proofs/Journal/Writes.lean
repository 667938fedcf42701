import Reckoner.Journal.Query
import Reckoner.Journal.RunLog
import Reckoner.Proofs.Files.Directories
import Reckoner.Proofs.Journal.Records

/-!
The files of a log after a number of writes. A write adds one record to the file of all events, and
one to the file of the run if its id is that of a file. No other entry is touched, so each file
holds the records of its events in the order in which they were written.
-/
namespace Reckoner.Journal

open Text Files Data

/-- An event and the id of the run under which it is written. -/
structure Write where
  event : Event
  run : Option (List Char)

namespace Log

/-- The tree after events have been written in turn. A write that fails leaves what it has done. -/
def writeAll (log : Log) (tree : Tree) (writes : List Write) : Tree :=
  writes.foldl (fun t w => (log.write t w.event w.run).1) tree

/-- A log that has been prepared and holds nothing yet. -/
structure Fresh (log : Log) (tree : Tree) : Prop where
  prepared : ∃ before, log.prepare before = (tree, none)
  events : tree.has log.eventsFile = .ok false
  runs : ∀ id p, log.runFile? id = some p → tree.has p ≠ .ok true

def eventsName : Name := "events.ndjson".toList

def runsName : Name := "runs".toList

def runName (id : List Char) : Name := id ++ ".ndjson".toList

/-- Whether the records of a run have a file. -/
def HasFile (id : List Char) : Prop := isRunId id = true ∧ Tree.isTooLong (runName id) = false

instance (id : List Char) : Decidable (HasFile id) := inferInstanceAs (Decidable (_ ∧ _))

/-- The names of the file of all events, in a log whose directory has the names `q`. -/
def eventsPlace (q : List Name) : List Name := q ++ [eventsName]

def runPlace (q : List Name) (id : List Char) : List Name := q ++ [runsName] ++ [runName id]

/-- The names of the files to which a write adds its record. -/
def places (q : List Name) (run : Option (List Char)) : List (List Name) :=
  eventsPlace q :: match run with
    | some id => if HasFile id then [runPlace q id] else []
    | none => []

/-- A log that can be written. -/
structure Ready (log : Log) (tree : Tree) (q : List Name) : Prop where
  directory : tree.directory? log.directory = some q
  runs : tree.entry? (q ++ [runsName]) = some .directory
  files : ∀ run, ∀ names ∈ places q run, tree.entry? names ≠ some .directory

section Places

variable {log : Log} {tree : Tree} {q : List Name} {id : List Char}

theorem usable_runsName : Usable runsName := by decide

theorem runName_ne_above (id : List Char) : runName id ≠ above := by
  intro h
  have hlength := congrArg List.length h
  unfold runName at hlength
  rw [List.length_append] at hlength
  simp [above] at hlength

theorem Ready.locate_events (h : log.Ready tree q) :
    tree.locate log.eventsFile = .ok (eventsPlace q) := by
  unfold eventsFile eventsPlace
  rw [Tree.locate_child (by decide) h.directory]
  rfl

theorem Ready.locate_run (h : log.Ready tree q) (id : List Char) :
    tree.locate (log.runsDirectory.child (runName id)) =
      if Tree.isTooLong (runName id) then .error .nameTooLong else .ok (runPlace q id) :=
  Tree.locate_child (runName_ne_above id)
    (Tree.directory?_child usable_runsName h.directory h.runs)

theorem runFile?_eq (log : Log) (id : List Char) :
    log.runFile? id = if isRunId id then some (log.runsDirectory.child (runName id)) else none :=
  rfl

theorem runPlace_injective {id id' : List Char} (h : runPlace q id = runPlace q id') : id = id' := by
  unfold runPlace runName at h
  have hname := List.singleton_inj.mp (List.append_cancel_left h)
  exact List.append_cancel_right hname

theorem eventsPlace_ne_runPlace : eventsPlace q ≠ runPlace q id := by
  intro h
  have hlength := congrArg List.length h
  unfold eventsPlace runPlace at hlength
  simp at hlength

theorem place_ne_nil {run : Option (List Char)} : ∀ names ∈ places q run, names ≠ [] := by
  intro names hnames
  unfold places at hnames
  rcases List.mem_cons.mp hnames with rfl | hnames
  · exact Tree.append_name_ne_nil _ _
  · split at hnames
    · split at hnames
      · rw [List.mem_singleton.mp hnames]
        exact Tree.append_name_ne_nil _ _
      · exact absurd hnames List.not_mem_nil
    · exact absurd hnames List.not_mem_nil

/-- A log that holds nothing can be written, and none of its files is there. -/
theorem Fresh.ready (h : log.Fresh tree) :
    ∃ q, log.Ready tree q ∧ ∀ run, ∀ names ∈ places q run, tree.entry? names = none := by
  obtain ⟨before, hprepared⟩ := h.prepared
  obtain ⟨r, hr⟩ := Tree.exists_directory_of_ensureDirectory hprepared
  obtain ⟨q, hq, -, hruns⟩ := Tree.exists_parent (by decide) hr
  have hlocate : tree.locate log.eventsFile = .ok (eventsPlace q) :=
    Tree.locate_child (by decide) hq
  have hnone : ∀ run, ∀ names ∈ places q run, tree.entry? names = none := by
    intro run names hnames
    unfold places at hnames
    rcases List.mem_cons.mp hnames with rfl | hnames
    · exact Tree.entry?_eq_none hlocate (by rw [h.events]; exact nofun)
    · split at hnames
      · rename_i id _
        split at hnames
        · rename_i hid
          rw [List.mem_singleton.mp hnames]
          have hlocateRun := Tree.locate_child (runName_ne_above id)
            (Tree.directory?_child usable_runsName hq hruns)
          rw [hid.2, if_neg Bool.false_ne_true] at hlocateRun
          refine Tree.entry?_eq_none hlocateRun (h.runs id _ ?_)
          rw [runFile?_eq, if_pos hid.1]
          rfl
        · exact absurd hnames List.not_mem_nil
      · exact absurd hnames List.not_mem_nil
  exact ⟨q, ⟨hq, hruns, fun run names hnames => by rw [hnone run names hnames]; exact nofun⟩,
    hnone⟩

end Places

section Writing

variable {log : Log} {tree : Tree} {q : List Name}

/-- Adding to a file of a log keeps the log. -/
theorem Ready.appendAt (h : log.Ready tree q) {run : Option (List Char)} {names : List Name}
    (hnames : names ∈ places q run) (bytes : Utf8.Bytes) :
    log.Ready (tree.appendAt names bytes) q := by
  have hne := place_ne_nil names hnames
  have hextends : tree.Extends (tree.appendAt names bytes) :=
    Tree.extends_put hne (h.files run names hnames)
  refine ⟨hextends.directory? h.directory, hextends.directories _ h.runs, fun run' others hothers => ?_⟩
  unfold Tree.appendAt
  rw [Tree.entry?_put hne]
  split
  · exact nofun
  · exact h.files run' others hothers

/-- A write adds its record at its places. -/
theorem Ready.write (h : log.Ready tree q) (e : Event) (run : Option (List Char)) :
    (log.write tree e run).1 = tree.appendEach ((places q run).map fun names => (names, record e)) ∧
      log.Ready (log.write tree e run).1 q := by
  have hmem : eventsPlace q ∈ places q run := List.mem_cons_self
  have hevents := h.appendAt hmem (record e)
  have hfirst : tree.append log.eventsFile (record e) =
      .ok (tree.appendAt (eventsPlace q) (record e)) :=
    Tree.append_eq h.locate_events (h.files run _ hmem) _
  have hone : appendAll tree (record e) [log.eventsFile] =
      (tree.appendAt (eventsPlace q) (record e), none) := by
    unfold appendAll
    rw [hfirst]
    rfl
  unfold Log.write targets
  cases run with
  | none =>
    rw [Option.bind_none, Option.toList_none, hone]
    exact ⟨rfl, hevents⟩
  | some id =>
    rw [Option.bind_some, runFile?_eq]
    by_cases hid : isRunId id = true
    · rw [if_pos hid, Option.toList_some]
      have hlocate := hevents.locate_run id
      unfold appendAll
      rw [hfirst]
      dsimp only
      unfold appendAll places
      by_cases hlong : Tree.isTooLong (runName id) = true
      · rw [if_pos hlong] at hlocate
        have hfile : ¬ HasFile id := fun hfile => by
          rw [hfile.2] at hlong
          exact Bool.false_ne_true hlong
        rw [Tree.append_error hlocate]
        dsimp only
        rw [if_neg hfile]
        exact ⟨rfl, hevents⟩
      · rw [if_neg hlong] at hlocate
        have hfile : HasFile id := ⟨hid, Bool.eq_false_iff.mpr hlong⟩
        have hmemRun : runPlace q id ∈ places q (some id) := by
          unfold places
          dsimp only
          rw [if_pos hfile]
          exact List.mem_cons_of_mem _ List.mem_cons_self
        rw [Tree.append_eq hlocate (hevents.files _ _ hmemRun)]
        dsimp only
        rw [if_pos hfile]
        exact ⟨rfl, hevents.appendAt hmemRun _⟩
    · have hfile : ¬ HasFile id := fun hfile => hid hfile.1
      rw [if_neg hid, Option.toList_none, hone]
      unfold places
      dsimp only
      rw [if_neg hfile]
      exact ⟨rfl, hevents⟩

/-- What writes add, and where. -/
def additions (q : List Name) (writes : List Write) : List (List Name × Utf8.Bytes) :=
  writes.flatMap fun w => (places q w.run).map fun names => (names, record w.event)

theorem Ready.writeAll (h : log.Ready tree q) (writes : List Write) :
    log.writeAll tree writes = tree.appendEach (additions q writes) ∧
      log.Ready (log.writeAll tree writes) q := by
  induction writes generalizing tree with
  | nil => exact ⟨rfl, h⟩
  | cons w writes ih =>
    obtain ⟨hwrite, hready⟩ := h.write w.event w.run
    obtain ⟨hwrites, hafter⟩ := ih hready
    refine ⟨?_, hafter⟩
    unfold additions Tree.appendEach
    rw [List.flatMap_cons, List.foldl_append]
    change log.writeAll (log.write tree w.event w.run).1 writes = _
    rw [hwrites, hwrite]
    rfl

theorem additions_ne_nil {writes : List Write} : ∀ a ∈ additions q writes, a.1 ≠ [] := by
  intro a ha
  obtain ⟨w, _, ha⟩ := List.mem_flatMap.mp ha
  obtain ⟨names, hnames, rfl⟩ := List.mem_map.mp ha
  exact place_ne_nil names hnames

end Writing

section Contents

variable {log : Log} {tree : Tree} {q : List Name} {writes : List Write}

/-- Every write adds to the file of all events. -/
theorem additions_events (q : List Name) (writes : List Write) :
    (additions q writes).filter (·.1 = eventsPlace q) =
      writes.map fun w => (eventsPlace q, record w.event) := by
  have hplaces : ∀ run, (places q run).filter (· = eventsPlace q) = [eventsPlace q] := by
    intro run
    unfold places
    rw [List.filter_cons_of_pos (by simp)]
    split
    · split
      · rw [List.filter_cons_of_neg (by simpa using eventsPlace_ne_runPlace.symm), List.filter_nil]
      · rfl
    · rfl
  induction writes with
  | nil => rfl
  | cons w writes ih =>
    unfold additions at ih ⊢
    rw [List.flatMap_cons, List.filter_append, ih, List.map_cons, List.filter_map]
    change ((places q w.run).filter (· = eventsPlace q)).map _ ++ _ = _
    rw [hplaces]
    rfl

/-- The writes under the id of a run add to the file of the run. -/
theorem additions_run {id : List Char} (hid : HasFile id) (q : List Name) (writes : List Write) :
    (additions q writes).filter (·.1 = runPlace q id) =
      (writes.filter (·.run = some id)).map fun w => (runPlace q id, record w.event) := by
  have hplaces : ∀ run, (places q run).filter (· = runPlace q id) =
      if run = some id then [runPlace q id] else [] := by
    intro run
    unfold places
    rw [List.filter_cons_of_neg (by simpa using eventsPlace_ne_runPlace)]
    split
    · rename_i id'
      by_cases heq : id' = id
      · subst heq
        rw [if_pos hid, if_pos rfl, List.filter_cons_of_pos (by simp), List.filter_nil]
      · have hother : runPlace q id' ≠ runPlace q id := fun h => heq (runPlace_injective h)
        rw [if_neg fun h => heq (Option.some.inj h)]
        split
        · rw [List.filter_cons_of_neg (by simpa using hother), List.filter_nil]
        · rfl
    · rfl
  induction writes with
  | nil => rfl
  | cons w writes ih =>
    unfold additions at ih ⊢
    rw [List.flatMap_cons, List.filter_append, ih, List.filter_map]
    change ((places q w.run).filter (· = runPlace q id)).map _ ++ _ = _
    rw [hplaces]
    by_cases hrun : w.run = some id
    · rw [if_pos hrun, List.filter_cons_of_pos (by simpa using hrun)]
      rfl
    · rw [if_neg hrun, List.filter_cons_of_neg (by simpa using hrun)]
      rfl

/-- What is read from a file is what its content is parsed to. -/
theorem read_eq_parse {p : Path} {content : Utf8.Bytes} (h : tree.read p = .ok content) :
    log.read tree p = parse log.tail content := by
  unfold read
  rw [Tree.has_of_read h, h]

/-- A file that is there if there are records for it is read as what these are parsed to. -/
theorem read_of_entry {p : Path} {names : List Name} {events : List Event}
    (hlocate : tree.locate p = .ok names)
    (hentry : tree.entry? names =
      if events = [] then none else some (.file (events.flatMap record))) :
    log.read tree p = parse log.tail (events.flatMap record) := by
  split at hentry
  · rename_i hnone
    subst hnone
    unfold read
    rw [Tree.has_eq_false hlocate hentry]
    exact (parse_nil log.tail).symm
  · exact read_eq_parse (Tree.read_eq hlocate hentry).2

/-- The entries that writes add to a log that holds nothing. -/
theorem entry?_writeAll (hready : log.Ready tree q) {names : List Name}
    (hnone : tree.entry? names = none) (writes : List Write) (events : List Event)
    (h : (additions q writes).filter (·.1 = names) = events.map fun e => (names, record e)) :
    Tree.entry? (log.writeAll tree writes) names =
      if events = [] then none else some (.file (events.flatMap record)) := by
  rw [(hready.writeAll writes).1, Tree.entry?_appendEach additions_ne_nil, h, hnone]
  have hcontent : tree.contentAt names = [] := by
    unfold Tree.contentAt
    rw [hnone]
  rw [hcontent, List.nil_append, List.flatMap_map]
  cases events <;> rfl

/-- What the file of all events is after writes to a log that holds nothing. -/
theorem Fresh.events_writeAll (h : log.Fresh tree) (writes : List Write) :
    ∃ names, (log.writeAll tree writes).locate log.eventsFile = .ok names ∧
      Tree.entry? (log.writeAll tree writes) names =
        if writes.map Write.event = [] then none
        else some (.file ((writes.map Write.event).flatMap record)) := by
  obtain ⟨q, hready, hnone⟩ := h.ready
  refine ⟨_, (hready.writeAll writes).2.locate_events, ?_⟩
  exact entry?_writeAll hready (hnone none _ List.mem_cons_self) writes (writes.map Write.event)
    (by rw [additions_events, List.map_map]; rfl)

/-- What the file of a run is after writes to a log that holds nothing. -/
theorem Fresh.run_writeAll (h : log.Fresh tree) (writes : List Write) {id : List Char}
    (hid : HasFile id) :
    ∃ names, (log.writeAll tree writes).locate (log.runsDirectory.child (runName id)) = .ok names ∧
      Tree.entry? (log.writeAll tree writes) names =
        if (writes.filter (·.run = some id)).map Write.event = [] then none
        else some (.file (((writes.filter (·.run = some id)).map Write.event).flatMap record)) := by
  obtain ⟨q, hready, hnone⟩ := h.ready
  have hmem : runPlace q id ∈ places q (some id) := by
    unfold places
    dsimp only
    rw [if_pos hid]
    exact List.mem_cons_of_mem _ List.mem_cons_self
  have hlocate := (hready.writeAll writes).2.locate_run id
  rw [hid.2, if_neg Bool.false_ne_true] at hlocate
  refine ⟨_, hlocate, entry?_writeAll hready (hnone (some id) _ hmem) writes _ ?_⟩
  rw [additions_run hid, List.map_map]
  rfl

/-- Writes to a log that holds nothing, after which everything written is within the tail that is
read. -/
structure Fitting (log : Log) (tree : Tree) (writes : List Write) : Prop where
  fresh : log.Fresh tree
  sound : ∀ w ∈ writes, w.event.Sound
  tail : ∀ bytes, (log.writeAll tree writes).read log.eventsFile = .ok bytes →
    (bytes.length : Int) ≤ log.tail

theorem Fitting.length_le (h : log.Fitting tree writes) (hne : writes ≠ []) :
    ((writes.flatMap fun w => record w.event).length : Int) ≤ log.tail := by
  obtain ⟨names, hlocate, hentry⟩ := h.fresh.events_writeAll writes
  rw [if_neg fun hnil => hne (List.map_eq_nil_iff.mp hnil), List.flatMap_map] at hentry
  exact h.tail _ (Tree.read_eq hlocate hentry).2

/-- Writes that have few enough bytes are within the tail. -/
theorem fitting_of_length (hfresh : log.Fresh tree) (hsound : ∀ w ∈ writes, w.event.Sound)
    (hlength : ((writes.flatMap fun w => record w.event).length : Int) ≤ log.tail) :
    log.Fitting tree writes := by
  refine ⟨hfresh, hsound, fun bytes hbytes => ?_⟩
  obtain ⟨names, hlocate, hentry⟩ := hfresh.events_writeAll writes
  split at hentry
  · unfold Tree.read at hbytes
    rw [Tree.find_eq hlocate, hentry] at hbytes
    exact absurd hbytes nofun
  · rw [(Tree.read_eq hlocate hentry).2, List.flatMap_map] at hbytes
    rwa [← Except.ok.inj hbytes]

/-- After writes all their events are read, oldest first. -/
theorem read_events (h : log.Fitting tree writes) :
    log.read (log.writeAll tree writes) log.eventsFile =
      .ok (writes.map fun w => w.event.stored) := by
  obtain ⟨names, hlocate, hentry⟩ := h.fresh.events_writeAll writes
  have htail : writes.map Write.event ≠ [] →
      (((writes.map Write.event).flatMap record).length : Int) ≤ log.tail := by
    intro hne
    rw [List.flatMap_map]
    exact h.length_le fun hnil => hne (by rw [hnil, List.map_nil])
  rw [read_of_entry hlocate hentry, parse_records (List.forall_mem_map.mpr h.sound) htail,
    List.map_map]
  rfl

theorem length_filter_flatMap_le {α β : Type} (p : α → Bool) (f : α → List β) (items : List α) :
    ((items.filter p).flatMap f).length ≤ (items.flatMap f).length :=
  (List.filter_sublist.flatMap f).length_le

/-- After writes the events of a run are read from its file, oldest first. -/
theorem read_run (h : log.Fitting tree writes) {id : List Char} (hid : HasFile id) :
    log.readRecords (log.writeAll tree writes) id =
      .ok ((writes.filter (·.run = some id)).map fun w => w.event.stored) := by
  obtain ⟨names, hlocate, hentry⟩ := h.fresh.run_writeAll writes hid
  have hsound : ∀ e ∈ (writes.filter (·.run = some id)).map Write.event, e.Sound :=
    List.forall_mem_map.mpr fun w hw => h.sound w (List.mem_of_mem_filter hw)
  have htail : (writes.filter (·.run = some id)).map Write.event ≠ [] →
      ((((writes.filter (·.run = some id)).map Write.event).flatMap record).length : Int) ≤
        log.tail := by
    intro hne
    have hwrites : writes ≠ [] := fun hnil => hne (by rw [hnil]; rfl)
    have hle := length_filter_flatMap_le (fun w : Write => decide (w.run = some id))
      (fun w => record w.event) writes
    rw [List.flatMap_map]
    exact Int.le_trans (Int.ofNat_le.mpr hle) (h.length_le hwrites)
  unfold readRecords
  rw [runFile?_eq, if_pos hid.1]
  dsimp only
  rw [read_of_entry hlocate hentry, parse_records hsound htail, List.map_map]
  rfl

end Contents

section Root

/-- A log in a directory of the root. -/
def atRoot (tail : Int) : Log := ⟨⟨true, ["logs".toList]⟩, false, tail⟩

/-- The tree that holds the directories of a log at the root only. -/
def rootTree : Tree :=
  ⟨[(["logs".toList], .directory), (["logs".toList, runsName], .directory)], []⟩

theorem fresh_atRoot (tail : Int) : (atRoot tail).Fresh rootTree where
  prepared := ⟨.empty, rfl⟩
  events := rfl
  runs := by
    intro id p hp
    rw [runFile?_eq] at hp
    split at hp
    · obtain rfl := Option.some.inj hp
      have hlocate := Tree.locate_child (t := rootTree) (p := (atRoot tail).runsDirectory)
        (q := ["logs".toList, runsName]) (runName_ne_above id) rfl
      split at hlocate
      · unfold Tree.has Tree.find
        rw [hlocate]
        exact nofun
      · rw [Tree.has_eq_false hlocate rfl]
        exact nofun
    · exact absurd hp nofun

/-- An event without a context. -/
def bareEvent (stamp : List Char) : Event :=
  ⟨1, stamp, .info, .lineError, [], "m".toList, some "x".toList⟩

/-- Two events under the ids of runs. -/
def twoWrites (first second : Option (List Char)) : List Write :=
  [⟨bareEvent "1".toList, first⟩, ⟨bareEvent "2".toList, second⟩]

theorem sound_bareEvent (stamp : List Char) : (bareEvent stamp).Sound :=
  ⟨Json.readable_of_lt (k := 1) (by decide), .map List.nodup_nil nofun⟩

theorem sound_twoWrites (first second : Option (List Char)) :
    ∀ w ∈ twoWrites first second, w.event.Sound :=
  List.forall_mem_cons.mpr ⟨sound_bareEvent _, List.forall_mem_cons.mpr ⟨sound_bareEvent _, nofun⟩⟩

theorem fitting_twoWrites (first second : Option (List Char)) :
    (atRoot defaultTail).Fitting rootTree (twoWrites first second) := by
  refine fitting_of_length (fresh_atRoot _) (sound_twoWrites first second) ?_
  · have hlength : (((record (bareEvent "1".toList) ++ record (bareEvent "2".toList)).length : Nat) :
        Int) ≤ defaultTail := by
      rw [record_eq, record_eq]
      decide +kernel
    unfold twoWrites
    rw [List.flatMap_cons, List.flatMap_cons, List.flatMap_nil, List.append_nil]
    exact hlength

end Root

end Log

end Reckoner.Journal
