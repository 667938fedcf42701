import Reckoner.Proofs.Journal.Writes

/-!
The files of runs. The id of a run has a file if it is a plain name, which one line feed may follow.
What is read for an id is what was written under it, and an id that has no file leaves no entry in
the tree.
-/
namespace Reckoner.Journal

open Text Files Data

/-- Names of letters, digits, underscores and hyphens. -/
def PlainName (s : List Char) : Prop := s ≠ [] ∧ ∀ c ∈ s, isIdChar c = true

theorem not_isIdChar_lineFeed : isIdChar '\n' = false := by decide

/-- A line feed at the end of an id is passed over. -/
theorem isRunId_iff {id : List Char} :
    isRunId id = true ↔ PlainName id ∨ ∃ name, PlainName name ∧ id = name ++ ['\n'] := by
  have hplain : ∀ s : List Char, (!s.isEmpty && s.all isIdChar) = true ↔ PlainName s := by
    intro s
    unfold PlainName
    rw [Bool.and_eq_true, Bool.not_eq_true', Bool.eq_false_iff, ne_eq, List.isEmpty_iff,
      List.all_eq_true]
  unfold isRunId
  dsimp only
  split
  · rename_i hlast
    obtain ⟨name, rfl⟩ := List.getLast?_eq_some_iff.mp hlast
    rw [List.dropLast_concat, hplain]
    constructor
    · exact fun h => Or.inr ⟨name, h, rfl⟩
    · rintro (h | ⟨name', h, heq⟩)
      · have hfeed := h.2 '\n' (List.mem_append_right _ List.mem_cons_self)
        rw [not_isIdChar_lineFeed] at hfeed
        exact absurd hfeed Bool.false_ne_true
      · rwa [List.append_cancel_right heq]
  · rename_i hlast
    rw [hplain]
    refine ⟨Or.inl, fun h => h.resolve_right ?_⟩
    rintro ⟨name, _, rfl⟩
    exact hlast List.getLast?_concat

namespace Log

variable {log : Log} {tree : Tree} {writes : List Write} {id : List Char}

/-- The id of a run whose file would have too long a name cannot be read. -/
theorem readRecords_of_tooLong (h : log.Fresh tree) (writes : List Write)
    (hid : isRunId id = true) (hlong : Tree.isTooLong (runName id) = true) :
    log.readRecords (log.writeAll tree writes) id = .error (.file .nameTooLong) := by
  obtain ⟨q, hready, _⟩ := h.ready
  have hlocate := (hready.writeAll writes).2.locate_run id
  rw [if_pos hlong] at hlocate
  unfold readRecords
  rw [runFile?_eq, if_pos hid]
  dsimp only
  unfold read Tree.has Tree.find
  rw [hlocate]
  rfl

/-- The places of the entries that writes change. -/
theorem mem_places_of_changed {q : List Name} (hready : log.Ready tree q) {names : List Name}
    (h : Tree.entry? (log.writeAll tree writes) names ≠ tree.entry? names) :
    ∃ w ∈ writes, names ∈ places q w.run := by
  rw [(hready.writeAll writes).1, Tree.entry?_appendEach additions_ne_nil] at h
  split at h
  · exact absurd rfl h
  · rename_i hne
    obtain ⟨a, ha⟩ := List.exists_mem_of_ne_nil _ hne
    obtain ⟨hmem, hnames⟩ := List.mem_filter.mp ha
    obtain ⟨w, hw, hmem⟩ := List.mem_flatMap.mp hmem
    obtain ⟨others, hothers, rfl⟩ := List.mem_map.mp hmem
    obtain rfl : others = names := of_decide_eq_true hnames
    exact ⟨w, hw, hothers⟩

/-- What is read for an id is what was written under it, if the id is a plain name, possibly with a
line feed after it; nothing is read for other ids. A name that is too long for a file is refused.
Writes change no entry but the file of all events and the files of the runs with such ids. -/
theorem runs_isolated (h : log.Fitting tree writes) (id : List Char) :
    ((PlainName id ∨ ∃ name, PlainName name ∧ id = name ++ ['\n']) →
      log.readRecords (log.writeAll tree writes) id =
        if Tree.isTooLong (id ++ ".ndjson".toList) then .error (.file .nameTooLong)
        else .ok ((writes.filter (·.run = some id)).map fun w => w.event.stored)) ∧
    (¬ (PlainName id ∨ ∃ name, PlainName name ∧ id = name ++ ['\n']) →
      log.readRecords (log.writeAll tree writes) id = .ok []) ∧
    ∀ names, Tree.entry? (log.writeAll tree writes) names ≠ tree.entry? names →
      tree.locate log.eventsFile = .ok names ∨
        ∃ w ∈ writes, ∃ run, w.run = some run ∧
          (PlainName run ∨ ∃ name, PlainName name ∧ run = name ++ ['\n']) ∧
          tree.locate (log.runsDirectory.child (run ++ ".ndjson".toList)) = .ok names := by
  refine ⟨fun hid => ?_, fun hid => ?_, fun names hnames => ?_⟩
  · rw [← isRunId_iff] at hid
    split
    · rename_i hlong
      exact readRecords_of_tooLong h.fresh writes hid hlong
    · rename_i hlong
      exact read_run h ⟨hid, Bool.eq_false_iff.mpr hlong⟩
  · rw [← isRunId_iff] at hid
    unfold readRecords
    rw [runFile?_eq, if_neg hid]
  · obtain ⟨q, hready, _⟩ := h.fresh.ready
    obtain ⟨w, hw, hplace⟩ := mem_places_of_changed hready hnames
    unfold places at hplace
    rcases List.mem_cons.mp hplace with rfl | hplace
    · exact Or.inl hready.locate_events
    · cases hrun : w.run with
      | none =>
        rw [hrun] at hplace
        exact absurd hplace List.not_mem_nil
      | some run =>
        rw [hrun] at hplace
        dsimp only at hplace
        split at hplace
        · rename_i hfile
          obtain rfl := List.mem_singleton.mp hplace
          have hlocate := hready.locate_run run
          rw [hfile.2, if_neg Bool.false_ne_true] at hlocate
          exact Or.inr ⟨w, hw, run, hrun, isRunId_iff.mp hfile.1, hlocate⟩
        · exact absurd hplace List.not_mem_nil

/-- An id that leads out of the directory of the runs has no file; a line feed after a name is part
of the name of a file. -/
theorem read_lineFeed_run :
    (atRoot defaultTail).readRecords
        ((atRoot defaultTail).writeAll rootTree (twoWrites (some "a\n".toList) (some "../b".toList)))
        "a\n".toList = .ok [(bareEvent "1".toList).stored] ∧
      (atRoot defaultTail).readRecords
        ((atRoot defaultTail).writeAll rootTree (twoWrites (some "a\n".toList) (some "../b".toList)))
        "../b".toList = .ok [] :=
  ⟨(runs_isolated (fitting_twoWrites _ _) _).1 (isRunId_iff.mp (by decide)),
    (runs_isolated (fitting_twoWrites _ _) _).2.1 fun h => absurd (isRunId_iff.mpr h) (by decide)⟩

end Log

end Reckoner.Journal
