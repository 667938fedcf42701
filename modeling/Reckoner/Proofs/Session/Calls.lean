import Reckoner.Proofs.Document.Counts
import Reckoner.Proofs.Journal.Records
import Reckoner.Proofs.Journal.Writes
import Reckoner.Session.Calculation

/-!
What calls write. Evaluating an expression that has a value or a fault writes one event, and a
document that has an outcome writes the notices of its run under the id of the run. A call that
breaks down writes nothing. So the log of a session is what its calls have written, one after the
other.
-/
namespace Reckoner.Session

open Text Files Data Journal Formula Number Document

/-- A call: an expression in a context, or a document. -/
inductive Call
  | evaluate (expression : List Char) (context precision : Value) (depth : Int)
  | process (text : List Char) (precision passes : Value)

/-- What a call gives; a run of a document has an id. -/
inductive Answer
  | value (expression : List Char) (r : Except Failure (List Char))
  | document (run text : List Char) (r : Except Breakdown Outcome)

def call (s : Session) : Call → Answer × Session
  | .evaluate expression context precision depth =>
    let (r, s) := s.evaluate expression context precision depth
    (.value expression r, s)
  | .process text precision passes =>
    let (r, after) := s.process text precision passes
    (.document s.takeRunId.1 text r, after)

/-- Makes calls in turn. -/
def callAll (s : Session) : List Call → List Answer × Session
  | [] => ([], s)
  | c :: rest =>
    let (a, s) := s.call c
    let (answers, s) := s.callAll rest
    (a :: answers, s)

/-- What a notice writes. -/
def Notice.write (n : Notice) (stamp : List Char) (run : Option (List Char)) : Write :=
  ⟨(n.event stamp).emitted, run⟩

/-- That notices are written in turn, each with a stamp of its own. -/
def Written (run : Option (List Char)) : List Notice → List Write → Prop :=
  List.Forall₂ fun n w => ∃ stamp, w = n.write stamp run

/-- What the call that gives an answer writes. -/
inductive Noted : Answer → List Write → Prop
  | completed {expression result : List Char} {writes : List Write}
      (h : Written none [Session.completed expression result] writes) :
      Noted (.value expression (.ok result)) writes
  | failed {expression : List Char} {f : Fault} {writes : List Write}
      (h : Written none [Session.failed expression f] writes) :
      Noted (.value expression (.error (.fault f))) writes
  | document {run text : List Char} {limit : Nat} {o : Outcome} {writes : List Write}
      (counted : o.Counted (ofText text).length)
      (h : Written (some run) (runNotices run limit o) writes) :
      Noted (.document run text (.ok o)) writes
  | brokenValue {expression : List Char} {b : Breakdown} :
      Noted (.value expression (.error (.breakdown b))) []
  | brokenDocument {run text : List Char} {b : Breakdown} :
      Noted (.document run text (.error b)) []

/-- A session after events have been written to its log. -/
structure Leaves (log : Log) (s s' : Session) (writes : List Write) : Prop where
  opened : s'.log = some log
  files : s'.tree = log.writeAll s.tree writes

section Writing

variable {s s' s'' : Session} {log : Log} {writes later : List Write}

theorem Leaves.none (h : s.log = some log) : Leaves log s s [] := ⟨h, rfl⟩

theorem Leaves.trans (h : Leaves log s s' writes) (h' : Leaves log s' s'' later) :
    Leaves log s s'' (writes ++ later) := by
  refine ⟨h'.opened, ?_⟩
  rw [h'.files, h.files]
  exact List.foldl_append.symm

/-- Emitting an event writes it, whatever becomes of the files. -/
theorem leaves_emit (h : s.log = some log) (e : Event) (run : Option (List Char)) :
    Leaves log s (s.emit e run) [⟨e.emitted, run⟩] := by
  have hfiles : (log.write s.tree e.emitted run).1 = log.writeAll s.tree [⟨e.emitted, run⟩] := rfl
  unfold emit
  split
  · rename_i hnone
    rw [h] at hnone
    exact absurd hnone nofun
  · rename_i log' hlog
    obtain rfl : log' = log := Option.some.inj (hlog.symm.trans h)
    unfold Event.emitted at hfiles
    split
    · rename_i hwrite
      rw [hwrite] at hfiles
      exact ⟨h, hfiles⟩
    · rename_i hwrite
      rw [hwrite] at hfiles
      exact ⟨h, hfiles⟩

theorem leaves_notify (h : s.log = some log) (n : Notice) (run : Option (List Char)) :
    ∃ stamp, Leaves log s (s.notify n run) [n.write stamp run] := by
  have hstamped : Leaves log s s.takeStamp.2 [] := ⟨h, rfl⟩
  exact ⟨s.takeStamp.1, hstamped.trans (leaves_emit hstamped.opened (n.event s.takeStamp.1) run)⟩

theorem leaves_notifyAll (h : s.log = some log) (run : List Char) (notices : List Notice) :
    ∃ writes, Leaves log s (s.notifyAll run notices) writes ∧
      Written (some run) notices writes := by
  induction notices generalizing s with
  | nil => exact ⟨[], .none h, .nil⟩
  | cons n notices ih =>
    obtain ⟨stamp, hfirst⟩ := leaves_notify h n (some run)
    obtain ⟨later, hlater, hwritten⟩ := ih hfirst.opened
    exact ⟨_, hfirst.trans hlater, .cons ⟨stamp, rfl⟩ hwritten⟩

theorem leaves_evaluate (h : s.log = some log) (expression : List Char)
    (context precision : Value) (depth : Int) :
    ∃ writes, Leaves log s (s.evaluate expression context precision depth).2 writes ∧
      Noted (.value expression (s.evaluate expression context precision depth).1) writes := by
  unfold evaluate
  split
  · rename_i f _
    obtain ⟨stamp, hleaves⟩ := leaves_notify h (failed expression f) none
    exact ⟨_, hleaves, .failed (.cons ⟨stamp, rfl⟩ .nil)⟩
  · exact ⟨[], .none h, .brokenValue⟩
  · split
    · exact ⟨[], .none h, .brokenValue⟩
    · rename_i result _
      obtain ⟨stamp, hleaves⟩ := leaves_notify h (completed expression result) none
      exact ⟨_, hleaves, .completed (.cons ⟨stamp, rfl⟩ .nil)⟩

theorem leaves_process (h : s.log = some log) (text : List Char) (precision passes : Value) :
    ∃ writes, Leaves log s (s.process text precision passes).2 writes ∧
      Noted (.document s.takeRunId.1 text (s.process text precision passes).1) writes := by
  have hstarted : Leaves log s s.takeRunId.2 [] := ⟨h, rfl⟩
  unfold process
  dsimp only
  split
  · exact ⟨[], hstarted, .brokenDocument⟩
  · rename_i n _
    split
    · exact ⟨[], hstarted, .brokenDocument⟩
    · rename_i o hrun
      obtain ⟨limit, hlimit⟩ : ∃ limit : Nat, (max 1 n).toNat = limit + 1 :=
        ⟨(max 1 n).toNat - 1, by omega⟩
      rw [hlimit] at hrun ⊢
      obtain ⟨writes, hleaves, hwritten⟩ := leaves_notifyAll hstarted.opened s.takeRunId.1
        (runNotices s.takeRunId.1 (limit + 1) o)
      exact ⟨writes, hstarted.trans hleaves, .document (counted_of_run hrun) hwritten⟩

theorem leaves_call (h : s.log = some log) (c : Call) :
    ∃ writes, Leaves log s (s.call c).2 writes ∧ Noted (s.call c).1 writes := by
  cases c with
  | evaluate expression context precision depth =>
    exact leaves_evaluate h expression context precision depth
  | process text precision passes => exact leaves_process h text precision passes

/-- Calls leave what each of them writes. -/
theorem leaves_callAll (h : s.log = some log) (calls : List Call) :
    ∃ groups : List (List Write), Leaves log s (s.callAll calls).2 groups.flatten ∧
      List.Forall₂ Noted (s.callAll calls).1 groups := by
  induction calls generalizing s with
  | nil => exact ⟨[], .none h, .nil⟩
  | cons c calls ih =>
    obtain ⟨writes, hfirst, hnoted⟩ := leaves_call h c
    obtain ⟨groups, hlater, hall⟩ := ih hfirst.opened
    exact ⟨writes :: groups, hfirst.trans hlater, .cons hnoted hall⟩

end Writing

section Runs

/-- The id of the run of an answer. -/
def Answer.run? : Answer → Option (List Char)
  | .value _ _ => none
  | .document run _ _ => some run

theorem Written.run {run : Option (List Char)} {notices : List Notice} {writes : List Write}
    (h : Written run notices writes) : ∀ w ∈ writes, w.run = run := by
  induction h with
  | nil => exact nofun
  | cons hw _ ih =>
    obtain ⟨_, rfl⟩ := hw
    exact List.forall_mem_cons.mpr ⟨rfl, ih⟩

/-- A call writes under the id of its run. -/
theorem Noted.run {a : Answer} {writes : List Write} (h : Noted a writes) :
    ∀ w ∈ writes, w.run = a.run? := by
  cases h with
  | completed h => exact h.run
  | failed h => exact h.run
  | document _ h => exact h.run
  | brokenValue => exact nofun
  | brokenDocument => exact nofun

theorem exists_answer {answers : List Answer} {groups : List (List Write)}
    (h : List.Forall₂ Noted answers groups) {group : List Write} (hgroup : group ∈ groups) :
    ∃ a ∈ answers, Noted a group := by
  induction h with
  | nil => exact absurd hgroup List.not_mem_nil
  | @cons a g answers groups hnoted _ ih =>
    rcases List.mem_cons.mp hgroup with rfl | hgroup
    · exact ⟨a, List.mem_cons_self, hnoted⟩
    · obtain ⟨b, hb, hnoted'⟩ := ih hgroup
      exact ⟨b, List.mem_cons_of_mem a hb, hnoted'⟩

/-- Under the id of a run that no call has, nothing is written. -/
theorem filter_run_eq_nil {answers : List Answer} {groups : List (List Write)}
    (h : List.Forall₂ Noted answers groups) {run : List Char}
    (hrun : run ∉ answers.filterMap Answer.run?) :
    groups.flatten.filter (·.run = some run) = [] := by
  rw [List.filter_eq_nil_iff]
  intro w hw hwrun
  obtain ⟨group, hgroup, hw⟩ := List.mem_flatten.mp hw
  obtain ⟨a, ha, hnoted⟩ := exists_answer h hgroup
  refine hrun (List.mem_filterMap.mpr ⟨a, ha, ?_⟩)
  rw [← hnoted.run w hw]
  exact of_decide_eq_true hwrun

/-- Under the id of a run there is what the call of this run has written. -/
theorem filter_run {answers : List Answer} {groups : List (List Write)}
    (h : List.Forall₂ Noted answers groups) (hruns : (answers.filterMap Answer.run?).Nodup)
    {a : Answer} {group : List Write} (hmem : (a, group) ∈ answers.zip groups) {run : List Char}
    (hrun : a.run? = some run) : groups.flatten.filter (·.run = some run) = group := by
  induction h with
  | nil => exact absurd hmem List.not_mem_nil
  | @cons b g answers groups hnoted hrest ih =>
    rw [List.flatten_cons, List.filter_append]
    rcases List.mem_cons.mp hmem with heq | hmem
    · obtain ⟨rfl, rfl⟩ := Prod.mk.inj heq
      rw [List.filterMap_cons_some hrun] at hruns
      rw [filter_run_eq_nil hrest (List.nodup_cons.mp hruns).1, List.append_nil,
        List.filter_eq_self.mpr]
      intro w hw
      rw [hnoted.run w hw, hrun]
      exact decide_eq_true rfl
    · have hrest' : run ∈ answers.filterMap Answer.run? :=
        List.mem_filterMap.mpr ⟨a, (List.of_mem_zip hmem).1, hrun⟩
      have hfirst : g.filter (·.run = some run) = [] := by
        rw [List.filter_eq_nil_iff]
        intro w hw hwrun
        rw [hnoted.run w hw] at hwrun
        rw [List.filterMap_cons_some (of_decide_eq_true hwrun)] at hruns
        exact (List.nodup_cons.mp hruns).1 hrest'
      rw [hfirst, List.nil_append]
      refine ih ?_ hmem
      rw [List.filterMap_cons] at hruns
      split at hruns
      · exact hruns
      · exact (List.nodup_cons.mp hruns).2

end Runs

end Reckoner.Session
