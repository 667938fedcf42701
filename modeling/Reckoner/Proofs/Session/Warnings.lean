import Reckoner.Proofs.Number.Difference
import Reckoner.Proofs.Session.Project

/-!
Warnings over a history of attempts to warn. An attempt is an event that cannot be written, or a
project with options that cannot be used, at a reading of the clock. Between attempts anything may
happen to the session, but its warnings are kept. They hold the reading at which the last line was
printed, and readings are compared as if their difference were exact. So lines come at least a
minute apart, and an attempt without a line comes less than a minute after a line.
-/
namespace Reckoner.Session

open Files Journal Number

section Callers

variable {s : Session} {e : Event} {run : Option (List Char)} {log : Log} {problem : FileProblem}
  {project : Path} {b : Breakdown}

theorem warnings_emit (hlog : s.log = some log)
    (h : (log.write s.tree e.redacted.attributed run).2 = some problem) :
    (s.emit e run).warnings = s.warnings.warn "logging failed".toList := by
  unfold emit
  rw [hlog]
  dsimp only
  rcases hwrite : log.write s.tree e.redacted.attributed run with ⟨tree, result⟩
  rw [hwrite] at h
  obtain rfl : result = some problem := h
  rfl

theorem warnings_openLog (s : Session) (project : Path) (sync : Bool) (tail : Option Int) :
    (s.openLog project sync tail).2.warnings = s.warnings := by
  unfold openLog
  dsimp only
  split <;> rfl

theorem warnings_useProject (h : (LogOptions.load s.tree project).problem = some b)
    (hb : b.isSettingsFault = true) :
    (s.useProject project).2.warnings =
      s.warnings.warn "could not read logging options; using defaults".toList := by
  unfold useProject
  dsimp only
  rw [h]
  dsimp only
  rw [if_pos hb, warnings_openLog]
  rfl

end Callers

/-- A call that gives cause to warn. -/
inductive Trouble
  | emit (e : Event) (run : Option (List Char))
  | useProject (project : Path)

namespace Trouble

/-- The session after the call. -/
def after (s : Session) : Trouble → Session
  | emit e run => s.emit e run
  | useProject project => (s.useProject project).2

/-- There is cause to warn: the event cannot be written, or the options cannot be used. -/
def Befalls (s : Session) : Trouble → Prop
  | emit e run => ∃ log problem, s.log = some log ∧
      (log.write s.tree e.redacted.attributed run).2 = some problem
  | useProject project => ∃ b, (LogOptions.load s.tree project).problem = some b ∧
      b.isSettingsFault = true

def message : Trouble → List Char
  | emit _ _ => "logging failed".toList
  | useProject _ => "could not read logging options; using defaults".toList

/-- All callers warn in the same way. -/
theorem warnings_after {s : Session} {trouble : Trouble} (h : trouble.Befalls s) :
    (trouble.after s).warnings = s.warnings.warn trouble.message := by
  cases trouble with
  | emit e run =>
    obtain ⟨log, problem, hlog, hproblem⟩ := h
    exact warnings_emit hlog hproblem
  | useProject project =>
    obtain ⟨b, hproblem, hb⟩ := h
    exact warnings_useProject hproblem hb

/-- Without cause to warn the warnings stay as they are. -/
theorem warnings_of_not_befalls {s : Session} {trouble : Trouble} (h : ¬ trouble.Befalls s) :
    (trouble.after s).warnings = s.warnings := by
  cases trouble with
  | emit e run =>
    unfold after Session.emit
    dsimp only
    cases hlog : s.log with
    | none => rfl
    | some log =>
      dsimp only
      rcases hwrite : log.write s.tree e.redacted.attributed run with ⟨tree, problem⟩
      cases problem with
      | none => rfl
      | some problem => exact absurd ⟨log, problem, hlog, congrArg Prod.snd hwrite⟩ h
  | useProject project =>
    unfold after Session.useProject
    dsimp only
    cases hproblem : (LogOptions.load s.tree project).problem with
    | none => exact s.warnings_openLog project _ _
    | some b =>
      dsimp only
      rw [if_neg fun hb => h ⟨b, hproblem, hb⟩]

end Trouble

/-- Trouble at a reading of the clock, in a session of which all but the warnings is given. -/
structure Attempt where
  reading : Float
  /-- The exact time of the reading. -/
  seconds : ℚ
  denotes : Denotes reading seconds
  around : Session
  trouble : Trouble
  befalls : trouble.Befalls around

namespace Attempt

/-- The warnings after an attempt. -/
def warnings (a : Attempt) (w : Warnings) : Warnings :=
  (a.trouble.after { a.around with warnings := { w with clock := a.reading } }).warnings

/-- Whether a line is printed. -/
def prints (a : Attempt) (w : Warnings) : Bool := (a.warnings w).lines != w.lines

theorem warnings_eq (a : Attempt) (w : Warnings) :
    a.warnings w = Warnings.warn { w with clock := a.reading } a.trouble.message := by
  obtain ⟨reading, seconds, denotes, around, trouble, befalls⟩ := a
  have h : trouble.Befalls { around with warnings := { w with clock := reading } } := by
    cases trouble <;> exact befalls
  exact Trouble.warnings_after h

end Attempt

/-- The last line was printed at the time `t`, which is zero before the first one. -/
structure Since (w : Warnings) (t : ℚ) : Prop where
  denotes : Denotes w.last t
  late : t = 0 ∨ 60 ≤ t

theorem denotes_of_fields {x : Float} {v : ℚ} {m : Nat} {q : Int}
    (h : Binary.ofFloat? x = some ⟨false, m, q⟩) (hv : (m : ℚ) * 2 ^ q = v) : Denotes x v :=
  ⟨_, h, hv⟩

theorem denotes_warningInterval : Denotes warningInterval 60 :=
  denotes_of_fields (m := 60 * 2 ^ 47) (q := -47) rfl (by norm_num)

section Step

variable {a : Attempt} {w : Warnings} {t : ℚ}

/-- The test on the clock is the exact one. -/
theorem Since.recent_iff (h : Since w t) (hle : t ≤ a.seconds) :
    a.reading - w.last < warningInterval ↔ a.seconds < t + 60 := by
  rw [sub_lt_iff_of_denotes a.denotes h.denotes denotes_warningInterval hle
    (h.late.imp_right fun ht => ⟨by norm_num, ht⟩), sub_lt_iff_lt_add']

/-- An attempt either finds the last line a minute ago, and then a line is printed, or it changes
nothing but the clock. -/
theorem Since.step (h : Since w t) (hle : t ≤ a.seconds) :
    (a.prints w = true ∧ t + 60 ≤ a.seconds ∧ Since (a.warnings w) a.seconds) ∨
      (a.prints w = false ∧ a.seconds < t + 60 ∧ Since (a.warnings w) t) := by
  have hrecent := h.recent_iff hle
  unfold Attempt.prints
  rw [a.warnings_eq]
  unfold Warnings.warn
  dsimp only
  by_cases hlt : a.seconds < t + 60
  · rw [if_pos (hrecent.mpr hlt)]
    exact Or.inr ⟨bne_self_eq_false _, hlt, h.denotes, h.late⟩
  · have hge : t + 60 ≤ a.seconds := not_lt.mp hlt
    rw [if_neg fun hle => hlt (hrecent.mp hle)]
    have hlate : 60 ≤ a.seconds := by
      rcases h.late with rfl | ht <;> linarith
    exact Or.inl ⟨by simp, hge, a.denotes, Or.inr hlate⟩

end Step

/-- An attempt at a time, and whether it printed a line. -/
structure Mark where
  seconds : ℚ
  printed : Bool

/-- The marks of attempts that come one after the other. -/
def history (w : Warnings) : List Attempt → List Mark
  | [] => []
  | a :: rest => ⟨a.seconds, a.prints w⟩ :: history (a.warnings w) rest

section Run

variable {attempts : List Attempt} {w : Warnings} {t : ℚ}

theorem exists_attempt_of_mem {m : Mark} (h : m ∈ history w attempts) :
    ∃ a ∈ attempts, a.seconds = m.seconds := by
  induction attempts generalizing w with
  | nil => exact absurd h List.not_mem_nil
  | cons a rest ih =>
    rcases List.mem_cons.mp h with rfl | h
    · exact ⟨a, List.mem_cons_self, rfl⟩
    · obtain ⟨b, hb, hm⟩ := ih h
      exact ⟨b, List.mem_cons_of_mem a hb, hm⟩

/-- Lines are a minute apart, and a minute from the last one before them. -/
theorem Since.spaced (h : Since w t) (hlate : ∀ a ∈ attempts, t ≤ a.seconds)
    (horder : attempts.Pairwise fun a b => a.seconds ≤ b.seconds) :
    (history w attempts).Pairwise (fun m n =>
        m.printed = true → n.printed = true → 60 ≤ n.seconds - m.seconds) ∧
      ∀ m ∈ history w attempts, m.printed = true → t + 60 ≤ m.seconds := by
  induction attempts generalizing w t with
  | nil => exact ⟨.nil, fun m hm => absurd hm List.not_mem_nil⟩
  | cons a rest ih =>
    obtain ⟨hfirst, hrest⟩ := List.pairwise_cons.mp horder
    rw [history, List.pairwise_cons, List.forall_mem_cons]
    rcases h.step (hlate a List.mem_cons_self) with ⟨_, hge, hnext⟩ | ⟨hprints, _, hnext⟩
    · obtain ⟨hspaced, hafter⟩ := ih hnext hfirst hrest
      refine ⟨⟨fun n hn _ hprinted => ?_, hspaced⟩, fun _ => hge, fun m hm hprinted => ?_⟩
      · exact le_sub_iff_add_le'.mpr (hafter n hn hprinted)
      · linarith [hafter m hm hprinted]
    · have hnot : a.prints w ≠ true := by rw [hprints]; exact Bool.false_ne_true
      obtain ⟨hspaced, hafter⟩ := ih hnext (fun b hb => hlate b (List.mem_cons_of_mem a hb)) hrest
      exact ⟨⟨fun n _ hprinted => absurd hprinted hnot, hspaced⟩,
        fun hprinted => absurd hprinted hnot, hafter⟩

/-- An attempt without a line comes less than a minute after a line. -/
theorem Since.close (h : Since w t) (hlate : ∀ a ∈ attempts, t ≤ a.seconds)
    (horder : attempts.Pairwise fun a b => a.seconds ≤ b.seconds) {before after : List Mark}
    {m : Mark} (hm : history w attempts = before ++ m :: after) (hprinted : m.printed = false) :
    m.seconds < t + 60 ∨
      ∃ n ∈ before, n.printed = true ∧ m.seconds < n.seconds + 60 := by
  induction attempts generalizing w t before with
  | nil => exact absurd hm (by simp [history])
  | cons a rest ih =>
    obtain ⟨hfirst, hrest⟩ := List.pairwise_cons.mp horder
    have hstep := h.step (hlate a List.mem_cons_self)
    rw [history] at hm
    cases before with
    | nil =>
      obtain ⟨rfl, _⟩ := List.cons.inj hm
      rcases hstep with ⟨hprints, _⟩ | ⟨_, hlt, _⟩
      · exact absurd (hprints.symm.trans hprinted) Bool.false_ne_true.symm
      · exact Or.inl hlt
    | cons n before =>
      obtain ⟨rfl, hm'⟩ := List.cons.inj hm
      have hlift : (∃ n ∈ before, n.printed = true ∧ m.seconds < n.seconds + 60) →
          ∃ n ∈ ⟨a.seconds, a.prints w⟩ :: before, n.printed = true ∧ m.seconds < n.seconds + 60 :=
        fun ⟨n, hn, hnear⟩ => ⟨n, List.mem_cons_of_mem _ hn, hnear⟩
      rcases hstep with ⟨hprints, _, hnext⟩ | ⟨_, _, hnext⟩
      · rcases ih hnext hfirst hrest hm' with hlt | hnear
        · exact Or.inr ⟨_, List.mem_cons_self, hprints, hlt⟩
        · exact Or.inr (hlift hnear)
      · exact (ih hnext (fun b hb => hlate b (List.mem_cons_of_mem a hb)) hrest hm').imp_right hlift

end Run

theorem since_start (clock : Float) : Since ⟨clock, 0, []⟩ 0 :=
  ⟨denotes_zero .positive, Or.inl rfl⟩

/-- Attempts to warn whose times do not fall and start at a minute or later: the first one prints a
line, any two lines are at least a minute apart, and an attempt without a line comes less than a
minute after a line. -/
theorem lines_apart_and_near (clock : Float) (attempts : List Attempt)
    (horder : attempts.Pairwise fun a b => a.seconds ≤ b.seconds)
    (hfirst : ∀ a ∈ attempts.head?, 60 ≤ a.seconds) :
    let marks := history ⟨clock, 0, []⟩ attempts
    (∀ m ∈ marks.head?, m.printed = true) ∧
    marks.Pairwise (fun m n =>
      m.printed = true → n.printed = true → 60 ≤ n.seconds - m.seconds) ∧
    ∀ before m after, marks = before ++ m :: after → m.printed = false →
      ∃ n ∈ before, n.printed = true ∧ m.seconds - n.seconds < 60 := by
  have hminute : ∀ a ∈ attempts, 60 ≤ a.seconds := by
    cases attempts with
    | nil => exact fun a ha => absurd ha List.not_mem_nil
    | cons a rest =>
      have ha : 60 ≤ a.seconds := hfirst a rfl
      exact List.forall_mem_cons.mpr
        ⟨ha, fun b hb => ha.trans ((List.pairwise_cons.mp horder).1 b hb)⟩
  have hlate : ∀ a ∈ attempts, 0 ≤ a.seconds := fun a ha => by linarith [hminute a ha]
  have hstart := since_start clock
  refine ⟨fun m hm => ?_, (hstart.spaced hlate horder).1, fun before m after hm hprinted => ?_⟩
  · cases attempts with
    | nil => exact absurd hm nofun
    | cons a rest =>
      obtain ⟨hprints, _⟩ := (hstart.step (hlate a List.mem_cons_self)).resolve_right
        fun h => by linarith [h.2.1, hminute a List.mem_cons_self]
      obtain rfl : _ = m := Option.some.inj hm
      exact hprints
  · rcases hstart.close hlate horder hm hprinted with hlt | ⟨n, hn, hnprinted, hnear⟩
    · obtain ⟨a, ha, hseconds⟩ := exists_attempt_of_mem (hm ▸ List.mem_append_cons_self)
      linarith [hminute a ha]
    · exact ⟨n, hn, hnprinted, sub_lt_iff_lt_add'.mpr hnear⟩

section Sample

/-- A session with a log that has no directory, beside settings with a tail that is no number. -/
def illKept : Session :=
  { beside "logging_tail_bytes: many\n" with
    log := some (Log.ofProject (Path.ofText ['.']) false none) }

theorem befalls_emit (e : Event) : (Trouble.emit e none).Befalls illKept :=
  ⟨_, .missing, rfl, rfl⟩

theorem befalls_useProject : (Trouble.useProject (Path.ofText ['.'])).Befalls illKept := by
  let path := (Path.ofText ['.']).child Settings.fileName
  let bytes := Text.Utf8.encode "logging_tail_bytes: many\n".toList
  have hread : illKept.tree.read path = .ok bytes := rfl
  have hfault : (Settings.options (Settings.ofFile path bytes)).problem.any
      Breakdown.isSettingsFault = true := by decide +kernel
  obtain ⟨b, hb⟩ := (Option.any_eq_true _ _).mp hfault
  exact ⟨b, (congrArg LogOptions.problem (load_options hread)).trans hb.1, hb.2⟩

/-- An event of which nothing is known but its kind. -/
def bareEvent : Event := ⟨1, [], .info, .evaluateCompleted, [], [], none⟩

/-- Two events that cannot be written, a minute apart, and half a second before the second one a
project with options that cannot be used. -/
def threeAttempts : List Attempt := [
  ⟨60, 60, denotes_warningInterval, illKept, .emit bareEvent none, befalls_emit bareEvent⟩,
  ⟨119.5, 239 / 2, denotes_of_fields (m := 239 * 2 ^ 45) (q := -46) rfl (by norm_num),
    illKept, .useProject (Path.ofText ['.']), befalls_useProject⟩,
  ⟨120, 120, denotes_of_fields (m := 120 * 2 ^ 46) (q := -46) rfl (by norm_num),
    illKept, .emit bareEvent none, befalls_emit bareEvent⟩]

/-- The attempt half a second too early prints no line, the one after a whole minute does. -/
theorem lines_of_threeAttempts :
    threeAttempts.Pairwise (fun a b => a.seconds ≤ b.seconds) ∧
      (∀ a ∈ threeAttempts.head?, 60 ≤ a.seconds) ∧
      history ⟨1, 0, []⟩ threeAttempts = [⟨60, true⟩, ⟨239 / 2, false⟩, ⟨120, true⟩] := by
  have horder : threeAttempts.Pairwise (fun a b => a.seconds ≤ b.seconds) := by
    unfold threeAttempts
    rw [List.pairwise_cons, List.forall_mem_cons, List.forall_mem_singleton, List.pairwise_pair]
    norm_num
  have hfirst : ∀ a ∈ threeAttempts.head?, 60 ≤ a.seconds := by
    rintro _ ⟨⟩
    exact le_refl (60 : ℚ)
  obtain ⟨first, second, third, hmarks⟩ : ∃ first second third, history ⟨1, 0, []⟩ threeAttempts =
      [⟨60, first⟩, ⟨239 / 2, second⟩, ⟨120, third⟩] := by
    unfold threeAttempts
    rw [history, history, history, history]
    exact ⟨_, _, _, rfl⟩
  obtain ⟨hhead, hspaced, hnear⟩ := lines_apart_and_near 1 threeAttempts horder hfirst
  rw [hmarks] at hhead hspaced hnear ⊢
  obtain rfl : first = true := hhead _ rfl
  obtain rfl : second = false := by
    refine Bool.eq_false_iff.mpr fun hsecond => ?_
    have hgap := (List.pairwise_cons.mp hspaced).1 _ List.mem_cons_self rfl hsecond
    norm_num at hgap
  obtain rfl : third = true := by
    refine Bool.eq_true_of_not_eq_false fun hthird => ?_
    obtain ⟨n, hn, hprinted, hgap⟩ := hnear [⟨60, true⟩, ⟨239 / 2, false⟩] _ [] rfl hthird
    rcases List.mem_pair.mp hn with rfl | rfl
    · norm_num at hgap
    · exact Bool.false_ne_true hprinted
  exact ⟨horder, hfirst, rfl⟩

end Sample

end Reckoner.Session
