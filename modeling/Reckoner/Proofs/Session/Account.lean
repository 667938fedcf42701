import Reckoner.Proofs.Session.Calls

/-!
The log as an account of the calls. Each call leaves records that tell its answer: one for an
expression, and for a document one for each failed line, in order, and one for its end. They are
found in the file of all events in the order of the calls, and by themselves in the file of the run.
-/
namespace Reckoner.Session

open Text Files Data Journal Formula Number Document

/-- Records that tell the answer to a call. Long texts are cut in them. -/
inductive Tells : Answer → List Value → Prop
  | completed {expression result : List Char} {record : Value}
      (h : Says record .info .evaluateCompleted none
        [(expressionKey, .text (shorten expression)), ("result".toList, .text (shorten result))]) :
      Tells (.value expression (.ok result)) [record]
  | failed {expression : List Char} {f : Fault} {record : Value}
      (h : Says record .error .evaluateFailed (some f.kind.code)
        [(expressionKey, .text (shorten expression))]) :
      Tells (.value expression (.error (.fault f))) [record]
  | document {run text : List Char} {o : Outcome} {lines : List Value} {last : Value}
      (ascending : (Outcome.sortByIndex o.errors).Pairwise fun a b => a.1 < b.1)
      (failures : List.Forall₂ (fun e record => Says record .warning .lineError (some e.2.code)
        [(runKey, .text run), (lineKey, .int e.1)]) (Outcome.sortByIndex o.errors) lines)
      (closing : Says last (if o.converged then .info else .warning)
        (if o.converged then .documentProcessed else .documentExhausted)
        (if o.converged then none else some exhaustedCode)
        [(runKey, .text run), ("iterations".toList, .int o.passes),
          ("converged".toList, .bool o.converged), ("lines".toList, .int o.lineCount),
          ("variables".toList, .int o.named.length),
          ("calculations".toList, .int o.results.length)]) :
      Tells (.document run text (.ok o)) (lines ++ [last])
  | brokenValue {expression : List Char} {b : Breakdown} :
      Tells (.value expression (.error (.breakdown b))) []
  | brokenDocument {run text : List Char} {b : Breakdown} :
      Tells (.document run text (.error b)) []

section Runs

variable {record : Value} {level : Level} {subject : Subject} {code : Option (List Char)}
variable {context : List (List Char × Value)}

theorem code_ne_nil (kind : FaultKind) : kind.code ≠ [] := by
  cases kind <;> exact List.cons_ne_nil _ _

/-- The record of a failed line adds the line to those of the run. -/
theorem add_failedLine {run : List Char} {n : Nat} {kind : FaultKind} (log : RunLog)
    (h : Says record .warning .lineError (some kind.code)
      [(runKey, .text run), (lineKey, .int n)]) :
    log.add record =
      .ok { log with lineErrors := Assoc.set log.lineErrors n (.text kind.code) } := by
  obtain ⟨context, hcontext, _, hentries⟩ := h.context
  have hline : Assoc.get? context lineKey = some (.int n) :=
    hentries (lineKey, .int n) (List.mem_cons_of_mem _ List.mem_cons_self)
  have hlineOf : RunLog.lineOf? context = some (n : Int) := by
    unfold RunLog.lineOf?
    rw [hline]
  have hcontextOf : Filter.contextOf record = .ok context := by
    unfold Filter.contextOf
    rw [hcontext]
    rfl
  have hcode : RunLog.codeOf record = .text kind.code := by
    unfold RunLog.codeOf
    rw [h.code]
    refine if_pos ?_
    change (!kind.code.isEmpty) = true
    rw [Bool.not_eq_true', Bool.eq_false_iff, ne_eq, List.isEmpty_iff]
    exact code_ne_nil kind
  have hsubject : RunLog.isSubject record .lineError = true := by
    rw [h.isSubject]
    rfl
  obtain ⟨entries, rfl⟩ := h.exists_map
  unfold RunLog.add
  dsimp only
  rw [if_pos hsubject, hcontextOf]
  simp only [bind, Except.bind]
  rw [hlineOf, hcode]
  rfl

/-- The record of the end closes the run. -/
theorem add_closing {converged : Bool} (log : RunLog)
    (h : Says record level (if converged then .documentProcessed else .documentExhausted) code
      context) : log.add record = .ok { log with outcome := some record } := by
  have hline : RunLog.isSubject record .lineError = false := by
    rw [h.isSubject]
    cases converged <;> decide
  have hend : (RunLog.isSubject record .documentProcessed ||
      RunLog.isSubject record .documentExhausted) = true := by
    rw [h.isSubject, h.isSubject]
    cases converged <;> decide
  obtain ⟨entries, rfl⟩ := h.exists_map
  unfold RunLog.add
  dsimp only
  rw [hline, hend]
  rfl

/-- The records of failed lines add these lines in order. -/
theorem addAll_failedLines {run : List Char} {errors : List (Nat × FaultKind)}
    {lines : List Value} (log : RunLog) (rest : List Value)
    (hlines : List.Forall₂ (fun e record => Says record .warning .lineError (some e.2.code)
        [(runKey, .text run), (lineKey, .int e.1)]) errors lines)
    (hsorted : errors.Pairwise fun a b => a.1 < b.1)
    (hnew : ∀ e ∈ errors, (e.1 : Int) ∉ Assoc.keys log.lineErrors) :
    log.addAll (lines ++ rest) = RunLog.addAll
      { log with lineErrors :=
          log.lineErrors ++ errors.map fun e => ((e.1 : Int), Value.text e.2.code) } rest := by
  induction hlines generalizing log with
  | nil =>
    rw [List.nil_append, List.map_nil, List.append_nil]
  | @cons e record errors lines hrecord _ ih =>
    obtain ⟨hfirst, hsorted⟩ := List.pairwise_cons.mp hsorted
    rw [List.cons_append, RunLog.addAll, add_failedLine log hrecord]
    change RunLog.addAll _ (lines ++ rest) = _
    rw [Assoc.set_of_not_mem (hnew e List.mem_cons_self), ih _ hsorted]
    · rw [List.append_assoc, List.map_cons, List.singleton_append]
    · intro e' he' hmem
      unfold Assoc.keys at hmem
      rw [List.map_append, List.mem_append] at hmem
      rcases hmem with hmem | hmem
      · exact hnew e' (List.mem_cons_of_mem _ he') hmem
      · have heq : (e'.1 : Int) = e.1 := List.mem_singleton.mp hmem
        have hlt := hfirst e' he'
        omega

/-- The records of a document tell its errors and whether it has settled. -/
theorem ofRecords_of_tells {run text : List Char} {o : Outcome} {records : List Value}
    (h : Tells (.document run text (.ok o)) records) :
    ∃ log, RunLog.ofRecords records = .ok log ∧ log.records = records ∧
      log.lineErrors =
        (Outcome.sortByIndex o.errors).map (fun e => ((e.1 : Int), Value.text e.2.code)) ∧
      log.converged? = some o.converged := by
  cases h with
  | @document _ _ _ lines last ascending failures closing =>
    generalize hrecords : lines ++ [last] = records
    have hall := addAll_failedLines ⟨records, [], none⟩ [last] failures ascending
      fun _ _ => List.not_mem_nil
    rw [hrecords, List.nil_append] at hall
    have hsorted : ((Outcome.sortByIndex o.errors).map
        fun e => ((e.1 : Int), Value.text e.2.code)).Pairwise
          fun a b => decide (a.1 ≤ b.1) = true := by
      refine List.pairwise_map.mpr (ascending.imp fun hlt => ?_)
      rw [decide_eq_true_iff]
      dsimp only
      omega
    refine ⟨⟨records, _, some last⟩, ?_, rfl, rfl, ?_⟩
    · unfold RunLog.ofRecords
      rw [hall, RunLog.addAll, add_closing _ closing]
      change Except.ok (RunLog.mk _ _ _) = _
      rw [List.mergeSort_of_pairwise hsorted]
    · unfold RunLog.converged?
      rw [Option.map_some, closing.isSubject]
      cases o.converged <;> rfl

end Runs

section Notices

/-- A notice that is read back and says to what it belongs. -/
structure Notice.Complete (n : Notice) : Prop where
  sound : Json.Sound (fun _ => True) (.map n.context)
  attributed : (n.event []).missing = []
  unmarked : missingKey ∉ Assoc.keys n.context

theorem Notice.Complete.sound_event {n : Notice} (h : n.Complete) (stamp : List Char) :
    (n.event stamp).Sound := ⟨Json.readable_of_lt (k := 1) (by decide), h.sound⟩

theorem Notice.Complete.sound_write {n : Notice} (h : n.Complete) (stamp : List Char)
    (run : Option (List Char)) : (n.write stamp run).event.Sound :=
  (h.sound_event stamp).emitted h.attributed

/-- The record of a notice. -/
theorem Notice.Complete.recorded {n : Notice} (h : n.Complete) (stamp : List Char)
    (run : Option (List Char)) {context : List (List Char × Value)}
    (hcontext : context ⊆
      n.context.map fun e => (e.1, Json.sorted (storable (redact e.2)))) :
    Says (n.write stamp run).event.stored n.level n.subject n.errorCode context := by
  obtain ⟨hlevel, hsubject, hcode, entries, hentries, hmark, hall⟩ :=
    says_emitted (h.sound_event stamp) h.attributed h.unmarked
  exact ⟨hlevel, hsubject, hcode, entries, hentries, hmark, fun e he => hall e (hcontext he)⟩

theorem complete_completed (expression result : List Char) :
    (completed expression result).Complete where
  sound := .map (by decide : ([expressionKey, "result".toList]).Nodup) (List.forall_mem_cons.mpr ⟨.text _,
    List.forall_mem_cons.mpr ⟨.text _, nofun⟩⟩)
  attributed := rfl
  unmarked := (by decide : missingKey ∉ [expressionKey, "result".toList])

theorem complete_failed (expression : List Char) (f : Fault) :
    (Session.failed expression f).Complete where
  sound := .map (by decide : ([expressionKey]).Nodup) (List.forall_mem_cons.mpr ⟨.text _, nofun⟩)
  attributed := rfl
  unmarked := (by decide : missingKey ∉ [expressionKey])

theorem complete_failedLine (run : List Char) {line : Nat} (hline : line < 10 ^ digitLimit)
    (kind : FaultKind) : (failedLine run line kind).Complete where
  sound := .map (by decide : ([runKey, lineKey]).Nodup) (List.forall_mem_cons.mpr ⟨.text _,
    List.forall_mem_cons.mpr ⟨.int hline, nofun⟩⟩)
  attributed := rfl
  unmarked := (by decide : missingKey ∉ [runKey, lineKey])

/-- The entries of the context of the notice that closes a run. -/
theorem context_closing (run : List Char) (limit : Nat) (o : Outcome) :
    (closing run limit o).context = (runKey, .text run) :: summary o := by
  unfold closing
  split <;> rfl

/-- The keys of the context of the notice that closes a run. -/
def closingKeys : List (List Char) := runKey :: ["iterations".toList, "converged".toList,
  "lines".toList, "variables".toList, "calculations".toList, "processing_time_ms".toList]

theorem complete_closing (run : List Char) (limit : Nat) {o : Outcome} {count : Nat}
    (hcount : count < 10 ^ digitLimit) (hpasses : o.passes < 10 ^ digitLimit)
    (hcounted : o.Counted count) : (closing run limit o).Complete where
  sound := by
    have hshort : ∀ {n : Nat}, n ≤ count → Json.Readable (n : Int) := fun hn =>
      Nat.lt_of_le_of_lt hn hcount
    rw [context_closing]
    refine .map (by decide : closingKeys.Nodup) ?_
    unfold summary
    simp only [List.forall_mem_cons]
    exact ⟨.text _, .int hpasses, .bool _, .int (hshort hcounted.lines_le),
      .int (hshort hcounted.named_le), .int (hshort hcounted.results_le), .float trivial, nofun⟩
  attributed := by
    unfold closing
    split <;> rfl
  unmarked := by
    rw [context_closing]
    exact (by decide : missingKey ∉ closingKeys)

/-- A name that is short enough for a file is not cut. -/
theorem shorten_run {run : List Char} (h : Log.HasFile run) : shorten run = run := by
  have hbytes : ∀ s : List Char, s.length ≤ (Utf8.encode s).length := by
    intro s
    induction s with
    | nil => exact Nat.le_refl 0
    | cons c s ih =>
      have hc : 1 ≤ (Utf8.encodeChar c).length := by
        unfold Utf8.encodeChar
        dsimp only
        split
        · exact Nat.le_refl 1
        · split
          · exact Nat.le_succ 1
          · split
            · exact Nat.le_add_left 1 2
            · exact Nat.le_add_left 1 3
      rw [Utf8.encode, List.flatMap_cons, List.length_append, List.length_cons]
      unfold Utf8.encode at ih
      omega
  have hname := h.2
  unfold Tree.isTooLong Log.runName at hname
  rw [decide_eq_false_iff_not] at hname
  have hlength := hbytes (run ++ ".ndjson".toList)
  rw [List.length_append] at hlength
  refine if_neg ?_
  unfold textLimit
  unfold Tree.nameLimit at hname
  omega

theorem context_failedLine {run : List Char} (hrun : Log.HasFile run) (line : Nat)
    (kind : FaultKind) : [(runKey, Value.text run), (lineKey, .int line)] ⊆
      (failedLine run line kind).context.map
        fun e => (e.1, Json.sorted (storable (redact e.2))) := by
  change _ ⊆ [(runKey, Value.text (shorten run)), (lineKey, .int line)]
  rw [shorten_run hrun]
  exact List.Subset.refl _

theorem context_closing_subset {run : List Char} (hrun : Log.HasFile run) (limit : Nat)
    (o : Outcome) : [(runKey, Value.text run), ("iterations".toList, .int o.passes),
        ("converged".toList, .bool o.converged), ("lines".toList, .int o.lineCount),
        ("variables".toList, .int o.named.length),
        ("calculations".toList, .int o.results.length)] ⊆
      (closing run limit o).context.map
        fun e => (e.1, Json.sorted (storable (redact e.2))) := by
  have hcontext : ((runKey, Value.text run) :: summary o).map
        (fun e => (e.1, Json.sorted (storable (redact e.2)))) =
      [(runKey, .text (shorten run)), ("iterations".toList, .int o.passes),
        ("converged".toList, .bool o.converged), ("lines".toList, .int o.lineCount),
        ("variables".toList, .int o.named.length), ("calculations".toList, .int o.results.length)]
        ++ [("processing_time_ms".toList, Json.sorted (storable (.float 0)))] := rfl
  rw [context_closing, hcontext, shorten_run hrun]
  exact List.subset_append_left _ _

theorem level_closing (run : List Char) (limit : Nat) (o : Outcome) :
    (closing run limit o).level = if o.converged then .info else .warning := by
  unfold closing
  split <;> rfl

theorem subject_closing (run : List Char) (limit : Nat) (o : Outcome) :
    (closing run limit o).subject =
      if o.converged then .documentProcessed else .documentExhausted := by
  unfold closing
  split <;> rfl

theorem errorCode_closing (run : List Char) (limit : Nat) (o : Outcome) :
    (closing run limit o).errorCode = if o.converged then none else some exhaustedCode := by
  unfold closing
  split <;> rfl

end Notices

section Telling

/-- That the numbers in an answer are short enough to be read back. -/
def Answer.Countable : Answer → Prop
  | .document _ text (.ok o) =>
    (ofText text).length < 10 ^ digitLimit ∧ o.passes < 10 ^ digitLimit
  | _ => True

/-- That the run of an answer has a file. -/
def Answer.Filed (a : Answer) : Prop := ∀ run ∈ a.run?, Log.HasFile run

variable {a : Answer} {writes : List Write}

theorem Written.sound {run : Option (List Char)} {notices : List Notice}
    (h : Written run notices writes) (hnotices : ∀ n ∈ notices, n.Complete) :
    ∀ w ∈ writes, w.event.Sound := by
  induction h with
  | nil => exact nofun
  | cons hw _ ih =>
    obtain ⟨stamp, rfl⟩ := hw
    obtain ⟨hfirst, hrest⟩ := List.forall_mem_cons.mp hnotices
    exact List.forall_mem_cons.mpr ⟨hfirst.sound_write stamp run, ih hrest⟩

/-- The notices of a run are complete. -/
theorem complete_runNotices (run : List Char) (limit : Nat) {o : Outcome} {count : Nat}
    (hcount : count < 10 ^ digitLimit) (hpasses : o.passes < 10 ^ digitLimit)
    (hcounted : o.Counted count) : ∀ n ∈ runNotices run limit o, n.Complete := by
  intro n hn
  rcases List.mem_append.mp hn with hn | hn
  · obtain ⟨e, he, rfl⟩ := List.mem_map.mp hn
    have hline : e.1 ≤ count := hcounted.errors_le e ((perm_sortByIndex _).mem_iff.mpr he)
    exact complete_failedLine run (Nat.lt_of_le_of_lt hline hcount) e.2
  · rw [List.mem_singleton.mp hn]
    exact complete_closing run limit hcount hpasses hcounted

theorem Noted.sound (h : Noted a writes) (ha : a.Countable) : ∀ w ∈ writes, w.event.Sound := by
  cases h with
  | completed h => exact h.sound (List.forall_mem_cons.mpr ⟨complete_completed _ _, nofun⟩)
  | failed h => exact h.sound (List.forall_mem_cons.mpr ⟨complete_failed _ _, nofun⟩)
  | document counted h => exact h.sound (complete_runNotices _ _ ha.1 ha.2 counted)
  | brokenValue => exact nofun
  | brokenDocument => exact nofun

/-- The last of some notices is written last. -/
theorem Written.concat {run : Option (List Char)} {notices : List Notice} {n : Notice}
    (h : Written run (notices ++ [n]) writes) :
    ∃ earlier stamp, writes = earlier ++ [n.write stamp run] ∧ Written run notices earlier := by
  induction notices generalizing writes with
  | nil =>
    cases h with
    | cons hw hrest =>
      obtain ⟨stamp, rfl⟩ := hw
      cases hrest
      exact ⟨[], stamp, rfl, .nil⟩
  | cons first notices ih =>
    cases h with
    | cons hw hrest =>
      obtain ⟨earlier, stamp, rfl, hearlier⟩ := ih hrest
      exact ⟨_ :: earlier, stamp, rfl, .cons hw hearlier⟩

/-- What a call writes tells its answer. -/
theorem Noted.tells (h : Noted a writes) (ha : a.Countable) (hfiled : a.Filed) :
    Tells a (writes.map fun w => w.event.stored) := by
  cases h with
  | completed h =>
    cases h with
    | cons hw hrest =>
      obtain ⟨stamp, rfl⟩ := hw
      cases hrest
      exact .completed ((complete_completed _ _).recorded stamp none (List.Subset.refl _))
  | failed h =>
    cases h with
    | cons hw hrest =>
      obtain ⟨stamp, rfl⟩ := hw
      cases hrest
      exact .failed ((complete_failed _ _).recorded stamp none (List.Subset.refl _))
  | @document run text limit o writes counted h =>
    have hcomplete := complete_runNotices run limit ha.1 ha.2 counted
    obtain ⟨earlier, stamp, rfl, hlines⟩ := h.concat
    rw [List.map_append, List.map_singleton]
    refine .document (sorted_errors counted.errors_nodup) ?_ ?_
    · rw [List.forall₂_map_right_iff]
      have hall := (List.forall₂_and_left _ _).mpr
        ⟨fun n hn => hcomplete n (List.mem_append_left _ hn), hlines⟩
      refine (List.forall₂_map_left_iff.mp hall).imp fun e w hw => ?_
      obtain ⟨hn, stamp, rfl⟩ := hw
      exact hn.recorded stamp (some run) (context_failedLine (hfiled run rfl) e.1 e.2)
    · have hn := hcomplete _ (List.mem_append_right _ List.mem_cons_self)
      have hsaid := hn.recorded stamp (some run) (context_closing_subset (hfiled run rfl) limit o)
      rwa [level_closing, subject_closing, errorCode_closing] at hsaid
  | brokenValue => exact .brokenValue
  | brokenDocument => exact .brokenDocument

end Telling

section Account

variable {s : Session} {log : Log} {calls : List Call}

/-- The log of a session that starts with none is an account of its calls. The file of all events
holds, in the order of the calls, records that tell their answers. The file of a run holds the
records of its call alone; read as a run, they give the errors of its outcome and say whether it has
settled. -/
theorem log_tells_calls (hlog : s.log = some log) (hfresh : log.Fresh s.tree)
    (hruns : ((s.callAll calls).1.filterMap Answer.run?).Nodup)
    (hanswers : ∀ a ∈ (s.callAll calls).1, a.Countable ∧ a.Filed)
    (htail : ∀ bytes, (s.callAll calls).2.tree.read log.eventsFile = .ok bytes →
      (bytes.length : Int) ≤ log.tail) :
    ∃ groups : List (List Value), List.Forall₂ Tells (s.callAll calls).1 groups ∧
      log.read (s.callAll calls).2.tree log.eventsFile = .ok groups.flatten ∧
      ∀ run text r group, (Answer.document run text r, group) ∈ (s.callAll calls).1.zip groups →
        log.readRecords (s.callAll calls).2.tree run = .ok group ∧
        ∀ o, r = .ok o → ∃ found, log.readRun (s.callAll calls).2.tree run = .ok found ∧
          found.records = group ∧
          found.lineErrors =
            (Outcome.sortByIndex o.errors).map (fun e => ((e.1 : Int), .text e.2.code)) ∧
          found.converged? = some o.converged := by
  obtain ⟨writes, hleaves, hnoted⟩ := leaves_callAll hlog calls
  have hsound : ∀ w ∈ writes.flatten, w.event.Sound := by
    intro w hw
    obtain ⟨group, hgroup, hw⟩ := List.mem_flatten.mp hw
    obtain ⟨a, ha, hnoted⟩ := exists_answer hnoted hgroup
    exact hnoted.sound (hanswers a ha).1 w hw
  rw [hleaves.files] at htail ⊢
  have hfitting : log.Fitting s.tree writes.flatten := ⟨hfresh, hsound, htail⟩
  have htells : List.Forall₂ Tells (s.callAll calls).1
      (writes.map fun group => group.map fun w => w.event.stored) := by
    rw [List.forall₂_map_right_iff]
    exact ((List.forall₂_and_left _ _).mpr ⟨hanswers, hnoted⟩).imp fun a group h =>
      h.2.tells h.1.1 h.1.2
  refine ⟨_, htells, ?_, fun run text r group hmem => ?_⟩
  · rw [Log.read_events hfitting, List.map_flatten]
  · have ha := (List.of_mem_zip hmem).1
    rw [List.zip_map_right] at hmem
    obtain ⟨⟨a, ws⟩, hzip, heq⟩ := List.mem_map.mp hmem
    obtain ⟨rfl, rfl⟩ := Prod.mk.inj heq
    have hread := Log.read_run hfitting ((hanswers _ ha).2 run rfl)
    rw [filter_run hnoted hruns hzip rfl] at hread
    refine ⟨hread, ?_⟩
    rintro o rfl
    obtain ⟨found, hfound, hrest⟩ := ofRecords_of_tells (List.forall₂_zip htells (by
      rw [List.zip_map_right]
      exact hmem))
    refine ⟨found, ?_, hrest⟩
    unfold Log.readRun
    rw [hread]
    exact hfound

end Account

section Tail

/-- The session with another tail of the files of its log. -/
def withTail (s : Session) (tail : Int) : Session :=
  { s with log := s.log.map fun log => { log with tail } }

theorem withTail_emit (s : Session) (tail : Int) (e : Event) (run : Option (List Char)) :
    (s.withTail tail).emit e run = (s.emit e run).withTail tail := by
  obtain ⟨tree, log, stampAt, stamped, runIdAt, started, warnings⟩ := s
  cases log with
  | none => rfl
  | some log =>
    unfold emit withTail
    dsimp only [Option.map_some]
    have hwrite : Log.write { log with tail } tree e.redacted.attributed run =
        log.write tree e.redacted.attributed run := rfl
    rw [hwrite]
    rcases log.write tree e.redacted.attributed run with ⟨tree', problem⟩
    cases problem <;> rfl

theorem withTail_notify (s : Session) (tail : Int) (n : Notice) (run : Option (List Char)) :
    (s.withTail tail).notify n run = (s.notify n run).withTail tail :=
  withTail_emit s.takeStamp.2 tail (n.event s.takeStamp.1) run

theorem withTail_notifyAll (s : Session) (tail : Int) (run : List Char) (notices : List Notice) :
    (s.withTail tail).notifyAll run notices = (s.notifyAll run notices).withTail tail := by
  induction notices generalizing s with
  | nil => rfl
  | cons n notices ih =>
    have hrest := ih (s.notify n (some run))
    rw [← withTail_notify] at hrest
    exact hrest

theorem withTail_call (s : Session) (tail : Int) (c : Call) :
    (s.withTail tail).call c = ((s.call c).1, (s.call c).2.withTail tail) := by
  cases c with
  | evaluate expression context precision depth =>
    unfold call evaluate
    dsimp only
    split
    · rw [withTail_notify]
    · rfl
    · split
      · rfl
      · rw [withTail_notify]
  | process text precision passes =>
    have hstarted : (s.withTail tail).takeRunId.2 = s.takeRunId.2.withTail tail := rfl
    unfold call process
    dsimp only
    split
    · rfl
    · split
      · rfl
      · rw [hstarted, withTail_notifyAll]
        rfl

/-- How much of a file is read has no effect on the answers and on what is written. -/
theorem withTail_callAll (s : Session) (tail : Int) (calls : List Call) :
    (s.withTail tail).callAll calls =
      ((s.callAll calls).1, (s.callAll calls).2.withTail tail) := by
  induction calls generalizing s with
  | nil => rfl
  | cons c calls ih =>
    rw [callAll, callAll, withTail_call]
    dsimp only
    rw [ih]

end Tail

section Sample

/-- A session with a log at the root, of which so many bytes are read. -/
def atRoot (tail : Int) : Session where
  tree := Log.rootTree
  log := some (Log.atRoot tail)
  stampAt := decimalDigits
  stamped := 0
  runIdAt := decimalDigits
  started := 0
  warnings := ⟨0, 0, []⟩

/-- A document with a line that fails, and an expression. -/
def twoCalls : List Call :=
  [.process "= 1 / 0\nx = 2".toList (.int 2) (.int 5), .evaluate "1 + 1".toList (.map []) (.int 2) 9]

/-- How many bytes the calls write to the file of all events. -/
def bytesWritten : Int :=
  match ((atRoot 0).callAll twoCalls).2.tree.read (Log.atRoot 0).eventsFile with
  | .ok bytes => bytes.length
  | .error _ => 0

theorem answers_twoCalls (s : Session) : (s.callAll twoCalls).1 =
    [.document s.takeRunId.1 "= 1 / 0\nx = 2".toList
        (s.process "= 1 / 0\nx = 2".toList (.int 2) (.int 5)).1,
      .value "1 + 1".toList ((s.process "= 1 / 0\nx = 2".toList (.int 2) (.int 5)).2.evaluate
        "1 + 1".toList (.map []) (.int 2) 9).1] := by
  unfold twoCalls
  generalize "= 1 / 0\nx = 2".toList = text
  generalize "1 + 1".toList = expression
  rfl

theorem countable_twoCalls (tail : Int) :
    ∀ a ∈ ((atRoot tail).callAll twoCalls).1, a.Countable ∧ a.Filed := by
  have hshort : ∀ n : Nat, n < 10 → n < 10 ^ digitLimit := fun n hn =>
    Nat.lt_of_lt_of_le hn (Nat.le_self_pow (by decide) 10)
  rw [answers_twoCalls, process_eq]
  refine List.forall_mem_cons.mpr ⟨⟨?_, ?_⟩, List.forall_mem_cons.mpr ⟨⟨trivial, nofun⟩, nofun⟩⟩
  · cases hrun : Document.run "= 1 / 0\nx = 2".toList (.int 2) (max 1 5 : Int).toNat with
    | error b => trivial
    | ok o =>
      have hpasses : o.passes ≤ 5 := passes_of_run hrun
      exact ⟨hshort 2 (by decide), hshort _ (by omega)⟩
  · rintro _ ⟨⟩
    unfold takeRunId atRoot
    dsimp only
    decide

/-- The log of a session with a document and an expression. -/
theorem twoCalls_told :
    ∃ groups : List (List Value),
      List.Forall₂ Tells ((atRoot bytesWritten).callAll twoCalls).1 groups ∧
      (Log.atRoot bytesWritten).read ((atRoot bytesWritten).callAll twoCalls).2.tree
        (Log.atRoot bytesWritten).eventsFile = .ok groups.flatten := by
  have hruns : (((atRoot bytesWritten).callAll twoCalls).1.filterMap Answer.run?).Nodup := by
    rw [answers_twoCalls]
    exact List.nodup_singleton _
  have hsame : ((atRoot bytesWritten).callAll twoCalls).2.tree =
      ((atRoot 0).callAll twoCalls).2.tree :=
    congrArg (fun r => r.2.tree) (withTail_callAll (atRoot 0) bytesWritten twoCalls)
  obtain ⟨groups, htells, hread, _⟩ := log_tells_calls rfl (Log.fresh_atRoot _) hruns
    (countable_twoCalls _) fun bytes hbytes => by
      rw [hsame] at hbytes
      unfold Log.atRoot bytesWritten
      change (bytes.length : Int) ≤ match ((atRoot 0).callAll twoCalls).2.tree.read
        (Log.atRoot 0).eventsFile with
        | .ok bytes => (bytes.length : Int)
        | .error _ => 0
      rw [show ((atRoot 0).callAll twoCalls).2.tree.read (Log.atRoot 0).eventsFile = .ok bytes
        from hbytes]
  exact ⟨groups, htells, hread⟩

end Sample

end Reckoner.Session
