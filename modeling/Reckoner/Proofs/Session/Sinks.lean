import Reckoner.Proofs.Session.Calls
import Reckoner.Session.Project

/-!
Calls and what may go wrong with the journal. A sink takes events in stages: it redacts an event,
checks to what it belongs, encodes it and appends the record to files. Each stage may fail, and
appending also after it has changed a file. All of this is guarded, but the events themselves are
made outside the guard. Making them cannot fail, so the answers of calls are the same with any sinks
and with none.
-/
namespace Reckoner.Session

open Text Files Data Journal Formula Number Document

variable {ε : Type}

/-- The stages of writing an event, each of which may fail. What a failed stage has done to the
files stays done. -/
structure Sink (ε : Type) where
  redact : Event → Except ε Event
  check : Event → Except ε Event
  encode : Event → Except ε Utf8.Bytes
  targets : Option (List Char) → List Path
  append : Tree → Path → Utf8.Bytes → Tree × Option ε

namespace Sink

/-- Appends a record to files in turn, up to the first failure. -/
def appendAll (sink : Sink ε) (tree : Tree) (bytes : Utf8.Bytes) : List Path → Tree × Option ε
  | [] => (tree, none)
  | p :: rest =>
    match sink.append tree p bytes with
    | (tree, none) => appendAll sink tree bytes rest
    | (tree, some why) => (tree, some why)

/-- The record of an event. -/
def record (sink : Sink ε) (e : Event) : Except ε Utf8.Bytes := do
  let e ← sink.redact e
  let e ← sink.check e
  sink.encode e

def write (sink : Sink ε) (tree : Tree) (e : Event) (run : Option (List Char)) :
    Tree × Option ε :=
  match sink.record e with
  | .ok bytes => sink.appendAll tree bytes (sink.targets run)
  | .error why => (tree, some why)

/-- The sink of a log: only appending may fail, and then the file is as it was. -/
def ofLog (log : Log) : Sink FileProblem where
  redact e := .ok e.redacted
  check e := .ok e.attributed
  encode e := .ok (Log.record e)
  targets := log.targets
  append tree p bytes :=
    match tree.append p bytes with
    | .ok tree => (tree, none)
    | .error problem => (tree, some problem)

theorem appendAll_ofLog (log : Log) (tree : Tree) (bytes : Utf8.Bytes) (paths : List Path) :
    (ofLog log).appendAll tree bytes paths = Log.appendAll tree bytes paths := by
  induction paths generalizing tree with
  | nil => rfl
  | cons p rest ih =>
    rw [appendAll, Log.appendAll]
    unfold ofLog
    dsimp only
    cases tree.append p bytes with
    | ok tree' => exact ih tree'
    | error problem => rfl

theorem write_ofLog (log : Log) (tree : Tree) (e : Event) (run : Option (List Char)) :
    (ofLog log).write tree e run = log.write tree e.redacted.attributed run :=
  appendAll_ofLog log tree _ _

end Sink

/-- The sink for each event in turn, if there is one. -/
abbrev Sinks (ε : Type) := Nat → Option (Sink ε)

section Calls

/-- The data that an event is made from. -/
def Notice.fields (n : Notice) : List (List Char × Value) := [
  ("level".toList, .text n.level.word), ("event_type".toList, .text n.subject.word),
  ("message".toList, .text n.message), ("context".toList, .map n.context),
  ("error_code".toList, match n.errorCode with
    | some code => .text code
    | none => .null)]

/-- Writes an event to a sink, if there is one; a failure ends in a warning. -/
def emitTo (s : Session) (sink : Option (Sink ε)) (e : Event) (run : Option (List Char)) :
    Session :=
  match sink with
  | none => s
  | some sink =>
    match sink.write s.tree e run with
    | (tree, none) => { s with tree }
    | (tree, some _) => { s with tree }.warn "logging failed"

/-- Makes an event and writes it to the sink of its turn. Making the event is not guarded: data that
is no event would break the call down. -/
def notifyTo (s : Session) (sinks : Sinks ε) (n : Notice) (run : Option (List Char)) :
    Except Breakdown Unit × Session :=
  let (stamp, s) := s.takeStamp
  match Event.ofFields stamp n.fields with
  | .ok e => (.ok (), s.emitTo (sinks s.stamped) e run)
  | .error b => (.error b, s)

def notifyAllTo (s : Session) (sinks : Sinks ε) (run : List Char) :
    List Notice → Except Breakdown Unit × Session
  | [] => (.ok (), s)
  | n :: rest =>
    match s.notifyTo sinks n (some run) with
    | (.ok _, s) => notifyAllTo s sinks run rest
    | (.error b, s) => (.error b, s)

/-- Evaluates an expression, where events go to sinks. -/
def evaluateTo (s : Session) (sinks : Sinks ε) (expression : List Char) (context precision : Value)
    (depth : Int) : Except Failure (List Char) × Session :=
  match valueIn context depth expression with
  | .error (.fault f) =>
    match s.notifyTo sinks (failed expression f) none with
    | (.ok _, s) => (.error (.fault f), s)
    | (.error b, s) => (.error (.breakdown b), s)
  | .error (.breakdown b) => (.error (.breakdown b), s)
  | .ok x =>
    match present x precision with
    | .error b => (.error (.breakdown b), s)
    | .ok result =>
      match s.notifyTo sinks (completed expression result) none with
      | (.ok _, s) => (.ok result, s)
      | (.error b, s) => (.error (.breakdown b), s)

/-- Runs a document, where events go to sinks. -/
def processTo (s : Session) (sinks : Sinks ε) (text : List Char) (precision passes : Value) :
    Except Breakdown Outcome × Session :=
  let (run, s) := s.takeRunId
  match passes.toInt with
  | .error b => (.error b, s)
  | .ok n =>
    let limit := (max 1 n).toNat
    match Document.run text precision limit with
    | .error b => (.error b, s)
    | .ok o =>
      match s.notifyAllTo sinks run (runNotices run limit o) with
      | (.ok _, s) => (.ok o, s)
      | (.error b, s) => (.error b, s)

def callTo (s : Session) (sinks : Sinks ε) : Call → Answer × Session
  | .evaluate expression context precision depth =>
    let (r, s) := s.evaluateTo sinks expression context precision depth
    (.value expression r, s)
  | .process text precision passes =>
    let (r, after) := s.processTo sinks text precision passes
    (.document s.takeRunId.1 text r, after)

/-- Makes calls in turn, where events go to sinks. -/
def callAllTo (s : Session) (sinks : Sinks ε) : List Call → List Answer × Session
  | [] => ([], s)
  | c :: rest =>
    let (a, s) := s.callTo sinks c
    let (answers, s) := s.callAllTo sinks rest
    (a :: answers, s)

end Calls

section Making

theorem ofWord?_level (l : Level) : Level.ofWord? l.word = some l := by
  cases l <;> decide

theorem ofWord?_subject (subject : Subject) : Subject.ofWord? subject.word = some subject := by
  cases subject <;> decide

/-- Making the event of a notice does not fail. -/
theorem ofFields_notice (n : Notice) (stamp : List Char) :
    Event.ofFields stamp n.fields = .ok (n.event stamp) := by
  have hdraft : Draft.ofFields stamp n.fields =
      ⟨some n.context, some n.errorCode, some n.subject, some n.level, some n.message, some 1,
        some stamp⟩ := by
    have hcode : (Draft.ofFields stamp n.fields).errorCode = some n.errorCode := by
      obtain ⟨level, subject, message, context, errorCode⟩ := n
      cases errorCode <;> rfl
    unfold Draft.ofFields at hcode ⊢
    rw [Draft.mk.injEq]
    exact ⟨rfl, hcode, ofWord?_subject n.subject, ofWord?_level n.level, rfl, rfl, rfl⟩
  unfold Event.ofFields
  rw [hdraft]
  rfl

end Making

section Answers

variable {s t : Session} (sinks : Sinks ε)

/-- That two sessions go on with the same ids of runs. -/
structure SameRuns (s t : Session) : Prop where
  ids : s.runIdAt = t.runIdAt
  started : s.started = t.started

theorem SameRuns.symm (h : SameRuns s t) : SameRuns t s := ⟨h.ids.symm, h.started.symm⟩

theorem SameRuns.trans {u : Session} (h : SameRuns s t) (h' : SameRuns t u) : SameRuns s u :=
  ⟨h.ids.trans h'.ids, h.started.trans h'.started⟩

theorem SameRuns.takeRunId (h : SameRuns s t) :
    s.takeRunId.1 = t.takeRunId.1 ∧ SameRuns s.takeRunId.2 t.takeRunId.2 := by
  unfold Session.takeRunId
  rw [h.ids, h.started]
  exact ⟨rfl, rfl, rfl⟩

theorem sameRuns_emitTo (s : Session) (sink : Option (Sink ε)) (e : Event)
    (run : Option (List Char)) : SameRuns (s.emitTo sink e run) s := by
  unfold emitTo
  split
  · exact ⟨rfl, rfl⟩
  · split <;> exact ⟨rfl, rfl⟩

/-- Noting something succeeds and leaves the ids of runs alone. -/
theorem notifyTo_spec (s : Session) (n : Notice) (run : Option (List Char)) :
    (s.notifyTo sinks n run).1 = .ok () ∧ SameRuns (s.notifyTo sinks n run).2 s := by
  unfold notifyTo
  dsimp only
  rw [ofFields_notice]
  exact ⟨rfl, (sameRuns_emitTo s.takeStamp.2 _ _ run).trans ⟨rfl, rfl⟩⟩

theorem notifyAllTo_spec (s : Session) (run : List Char) (notices : List Notice) :
    (s.notifyAllTo sinks run notices).1 = .ok () ∧
      SameRuns (s.notifyAllTo sinks run notices).2 s := by
  induction notices generalizing s with
  | nil => exact ⟨rfl, rfl, rfl⟩
  | cons n notices ih =>
    obtain ⟨hok, hsame⟩ := notifyTo_spec sinks s n (some run)
    have hfirst : s.notifyTo sinks n (some run) = (.ok (), (s.notifyTo sinks n (some run)).2) :=
      Prod.ext hok rfl
    rw [notifyAllTo, hfirst]
    exact ⟨(ih _).1, (ih _).2.trans hsame⟩

/-- What evaluating an expression comes to. -/
def evaluated (expression : List Char) (context precision : Value) (depth : Int) :
    Except Failure (List Char) := do
  let x ← valueIn context depth expression
  asBreakdown (present x precision)

/-- What running a document comes to. -/
def processed (text : List Char) (precision passes : Value) : Except Breakdown Outcome := do
  let n ← passes.toInt
  Document.run text precision (max 1 n).toNat

theorem evaluateTo_spec (s : Session) (expression : List Char) (context precision : Value)
    (depth : Int) :
    (s.evaluateTo sinks expression context precision depth).1 =
        evaluated expression context precision depth ∧
      SameRuns (s.evaluateTo sinks expression context precision depth).2 s := by
  unfold evaluateTo evaluated
  cases valueIn context depth expression with
  | error why =>
    cases why with
    | breakdown b => exact ⟨rfl, rfl, rfl⟩
    | fault f =>
      obtain ⟨hok, hsame⟩ := notifyTo_spec sinks s (failed expression f) none
      have hnoted : s.notifyTo sinks (failed expression f) none = (.ok (), _) := Prod.ext hok rfl
      dsimp only
      rw [hnoted]
      exact ⟨rfl, hsame⟩
  | ok x =>
    dsimp only [bind, Except.bind]
    cases present x precision with
    | error b => exact ⟨rfl, rfl, rfl⟩
    | ok result =>
      obtain ⟨hok, hsame⟩ := notifyTo_spec sinks s (completed expression result) none
      have hnoted : s.notifyTo sinks (completed expression result) none = (.ok (), _) :=
        Prod.ext hok rfl
      dsimp only
      rw [hnoted]
      exact ⟨rfl, hsame⟩

theorem processTo_spec (s : Session) (text : List Char) (precision passes : Value) :
    (s.processTo sinks text precision passes).1 = processed text precision passes ∧
      SameRuns (s.processTo sinks text precision passes).2 s.takeRunId.2 := by
  unfold processTo processed
  dsimp only
  cases passes.toInt with
  | error b => exact ⟨rfl, rfl, rfl⟩
  | ok n =>
    dsimp only [bind, Except.bind]
    cases Document.run text precision (max 1 n).toNat with
    | error b => exact ⟨rfl, rfl, rfl⟩
    | ok o =>
      obtain ⟨hok, hsame⟩ := notifyAllTo_spec sinks s.takeRunId.2 s.takeRunId.1
        (runNotices s.takeRunId.1 (max 1 n).toNat o)
      have hnoted : s.takeRunId.2.notifyAllTo sinks s.takeRunId.1
          (runNotices s.takeRunId.1 (max 1 n).toNat o) = (.ok (), _) := Prod.ext hok rfl
      dsimp only
      rw [hnoted]
      exact ⟨rfl, hsame⟩

/-- One call gives the same answer with any two sinks, and the ids of runs go on alike. -/
theorem callTo_same {ε' : Type} (sinks' : Sinks ε') (h : SameRuns s t) (c : Call) :
    (s.callTo sinks c).1 = (t.callTo sinks' c).1 ∧
      SameRuns (s.callTo sinks c).2 (t.callTo sinks' c).2 := by
  cases c with
  | evaluate expression context precision depth =>
    obtain ⟨hanswer, hsame⟩ := evaluateTo_spec sinks s expression context precision depth
    obtain ⟨hanswer', hsame'⟩ := evaluateTo_spec sinks' t expression context precision depth
    exact ⟨congrArg (Answer.value expression) (hanswer.trans hanswer'.symm),
      (hsame.trans h).trans hsame'.symm⟩
  | process text precision passes =>
    obtain ⟨hanswer, hsame⟩ := processTo_spec sinks s text precision passes
    obtain ⟨hanswer', hsame'⟩ := processTo_spec sinks' t text precision passes
    obtain ⟨hrun, hnext⟩ := h.takeRunId
    refine ⟨?_, (hsame.trans hnext).trans hsame'.symm⟩
    unfold callTo
    dsimp only
    rw [hanswer, hanswer', hrun]

/-- Calls give the same answers with any two sinks. -/
theorem callAllTo_same {ε' : Type} (sinks' : Sinks ε') (h : SameRuns s t) (calls : List Call) :
    (s.callAllTo sinks calls).1 = (t.callAllTo sinks' calls).1 := by
  induction calls generalizing s t with
  | nil => rfl
  | cons c calls ih =>
    obtain ⟨hanswer, hsame⟩ := callTo_same sinks sinks' h c
    rw [callAllTo, callAllTo]
    dsimp only
    rw [hanswer, ih hsame]

end Answers

section Logs

/-- The sinks of a session are the log that it uses. -/
def sinks (s : Session) : Sinks FileProblem := fun _ => s.log.map .ofLog

theorem emitTo_log (s : Session) (e : Event) (run : Option (List Char)) :
    s.emitTo (s.log.map .ofLog) e run = s.emit e run := by
  unfold emitTo emit
  cases s.log with
  | none => rfl
  | some log =>
    dsimp only [Option.map_some]
    rw [Sink.write_ofLog]
    rcases log.write s.tree e.redacted.attributed run with ⟨tree, problem⟩
    cases problem <;> rfl

theorem log_emit (s : Session) (e : Event) (run : Option (List Char)) :
    (s.emit e run).log = s.log := by
  unfold emit
  split
  · rfl
  · split <;> rfl

theorem notifyTo_log (s : Session) (n : Notice) (run : Option (List Char)) :
    s.notifyTo s.sinks n run = (.ok (), s.notify n run) ∧
      (s.notify n run).log = s.log := by
  refine ⟨?_, log_emit s.takeStamp.2 _ run⟩
  unfold notifyTo
  dsimp only
  rw [ofFields_notice]
  exact congrArg (Prod.mk (Except.ok ())) (emitTo_log s.takeStamp.2 _ run)

theorem notifyAllTo_log (s : Session) (run : List Char) (notices : List Notice) :
    s.notifyAllTo s.sinks run notices = (.ok (), s.notifyAll run notices) ∧
      (s.notifyAll run notices).log = s.log := by
  induction notices generalizing s with
  | nil => exact ⟨rfl, rfl⟩
  | cons n notices ih =>
    obtain ⟨hnotify, hlog⟩ := notifyTo_log s n (some run)
    have hsinks : (s.notify n (some run)).sinks = s.sinks :=
      funext fun _ => congrArg (Option.map Sink.ofLog) hlog
    obtain ⟨hrest, hlog'⟩ := ih (s.notify n (some run))
    rw [hsinks] at hrest
    refine ⟨?_, hlog'.trans hlog⟩
    rw [notifyAllTo, hnotify]
    exact hrest

theorem evaluateTo_log (s : Session) (expression : List Char) (context precision : Value)
    (depth : Int) :
    s.evaluateTo s.sinks expression context precision depth =
        s.evaluate expression context precision depth ∧
      (s.evaluate expression context precision depth).2.log = s.log := by
  unfold evaluateTo evaluate
  cases valueIn context depth expression with
  | error why =>
    cases why with
    | breakdown b => exact ⟨rfl, rfl⟩
    | fault f =>
      obtain ⟨hnotify, hlog⟩ := notifyTo_log s (failed expression f) none
      dsimp only
      rw [hnotify]
      exact ⟨rfl, hlog⟩
  | ok x =>
    dsimp only
    cases present x precision with
    | error b => exact ⟨rfl, rfl⟩
    | ok result =>
      obtain ⟨hnotify, hlog⟩ := notifyTo_log s (completed expression result) none
      dsimp only
      rw [hnotify]
      exact ⟨rfl, hlog⟩

theorem processTo_log (s : Session) (text : List Char) (precision passes : Value) :
    s.processTo s.sinks text precision passes = s.process text precision passes ∧
      (s.process text precision passes).2.log = s.log := by
  unfold processTo process
  dsimp only
  cases passes.toInt with
  | error b => exact ⟨rfl, rfl⟩
  | ok n =>
    dsimp only
    cases Document.run text precision (max 1 n).toNat with
    | error b => exact ⟨rfl, rfl⟩
    | ok o =>
      obtain ⟨hnotify, hlog⟩ := notifyAllTo_log s.takeRunId.2 s.takeRunId.1
        (runNotices s.takeRunId.1 (max 1 n).toNat o)
      have hsinks : s.takeRunId.2.sinks = s.sinks := rfl
      rw [hsinks] at hnotify
      dsimp only
      rw [hnotify]
      exact ⟨rfl, hlog⟩

theorem callTo_log (s : Session) (c : Call) :
    s.callTo s.sinks c = s.call c ∧ (s.call c).2.log = s.log := by
  cases c with
  | evaluate expression context precision depth =>
    obtain ⟨hsame, hlog⟩ := evaluateTo_log s expression context precision depth
    exact ⟨congrArg (fun r => (Answer.value expression r.1, r.2)) hsame, hlog⟩
  | process text precision passes =>
    obtain ⟨hsame, hlog⟩ := processTo_log s text precision passes
    exact ⟨congrArg (fun r => (Answer.document s.takeRunId.1 text r.1, r.2)) hsame, hlog⟩

/-- A session calls with its own log as the sink. -/
theorem callAllTo_log (s : Session) (calls : List Call) :
    s.callAllTo s.sinks calls = s.callAll calls := by
  induction calls generalizing s with
  | nil => rfl
  | cons c calls ih =>
    obtain ⟨hcall, hlog⟩ := callTo_log s c
    have hsinks : (s.call c).2.sinks = s.sinks :=
      funext fun _ => congrArg (Option.map Sink.ofLog) hlog
    have hrest := ih (s.call c).2
    rw [hsinks] at hrest
    rw [callAllTo, callAll, hcall]
    dsimp only
    rw [hrest]

end Logs

/-- Whatever becomes of the journal, calls give the answers that they give without a log. Each event
may find no sink, a sink that writes it or one that fails at any stage; one instance are the calls
of a session with its log. -/
theorem answers_without_log (s : Session) (calls : List Call) :
    (∀ (ε : Type) (sinks : Sinks ε),
      (s.callAllTo sinks calls).1 = (s.closeLog.callAll calls).1) ∧
    (s.callAll calls).1 = (s.closeLog.callAll calls).1 := by
  have hall : ∀ (ε : Type) (sinks : Sinks ε),
      (s.callAllTo sinks calls).1 = (s.closeLog.callAll calls).1 := by
    intro ε sinks
    have hruns : SameRuns s s.closeLog := ⟨rfl, rfl⟩
    rw [← callAllTo_log s.closeLog]
    exact callAllTo_same sinks s.closeLog.sinks hruns calls
  refine ⟨hall, ?_⟩
  rw [← callAllTo_log s]
  exact hall FileProblem s.sinks

end Reckoner.Session
