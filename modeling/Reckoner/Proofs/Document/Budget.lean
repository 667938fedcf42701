import Reckoner.Proofs.Document.WellFormed
import Reckoner.Proofs.Formula.Depth

/-!
What the allowed number of passes has to do with the outcome of a run. A run ends with the first
pass that changes nothing. Passes after it change nothing either, since two passes from alike
standings evaluate the same texts; so a run with any other number that allows for this pass comes to
the same outcome. The number is also the bound on the nesting of calls, and it must not be met as
such.
-/
namespace Reckoner.Document

open Text Number Data Formula

variable {doc ls : List Line} {names : List (List Char)} {depth depth' : Nat} {line : Line}

section Alike

variable {p p' q : Progress} {before other : Standing} {after : PassResult}

/-- Two results of passes with the same maps. -/
structure PassResult.Same (a b : PassResult) : Prop where
  results : ∀ i, Assoc.get? a.standing.results i = Assoc.get? b.standing.results i
  named : ∀ n, Assoc.get? a.standing.named n = Assoc.get? b.standing.named n
  errors : a.errors = b.errors

/-- Two passes under way that have come to the same values for the lines that they have been over,
and still have alike values for the others. -/
structure Progress.Matches (ls : List Line) (p p' : Progress) : Prop where
  alike : p.standing.Alike p'.standing
  assigned : p'.assigned = p.assigned
  errors : p'.errors = p.errors
  results : ∀ l ∈ ls, l.form ≠ .blank →
    Assoc.get? p'.standing.results l.index = Assoc.get? p.standing.results l.index
  named : ∀ n ∈ p.assigned, Assoc.get? p'.standing.named n = Assoc.get? p.standing.named n

theorem sameOutcome_or {a b : Option Float} (r : Option Float) (h : SameOutcome a b) :
    SameOutcome (r.or a) (r.or b) := by
  cases r with
  | none => exact h
  | some x => exact sameOutcome_refl _

/-- The same outcome is recorded in both. -/
theorem Progress.Matches.record (h : p.Matches ls p') (line : Line) (r : Except Fault Float) :
    (p.record line r).Matches (line :: ls) (p'.record line r) := by
  refine ⟨⟨fun n => ?_, fun i => ?_⟩, ?_, ?_, fun l hl hform => ?_, fun n hn => ?_⟩
  · rw [named_record, named_record]
    split
    · exact sameOutcome_or _ (h.alike.named n)
    · exact h.alike.named n
  · rw [results_record, results_record]
    split
    · exact sameOutcome_refl _
    · exact h.alike.results i
  · cases r with
    | ok x =>
      change (p'.succeed line x).assigned = (p.succeed line x).assigned
      unfold Progress.succeed
      cases line.form.name? with
      | none => exact h.assigned
      | some n => exact congrArg (n :: ·) h.assigned
    | error f => exact h.assigned
  · cases r with
    | ok x =>
      change (p'.succeed line x).errors = (p.succeed line x).errors
      unfold Progress.succeed
      cases line.form.name? <;> exact h.errors
    | error f => exact congrArg (Assoc.set · line.index f.kind) h.errors
  · rw [results_record, results_record]
    split
    · rfl
    · rename_i hne
      rcases List.mem_cons.mp hl with rfl | hl
      · exact absurd rfl hne
      · exact h.results l hl hform
  · rw [named_record, named_record]
    rcases (mem_assigned_record p line r n).mp hn with ⟨hname, hok⟩ | hn
    · obtain ⟨x, hx⟩ := Option.isSome_iff_exists.mp hok
      rw [if_pos hname, if_pos hname, hx]
      rfl
    · rw [h.named n hn]

variable (hidentifiers : ∀ n ∈ names, isIdentifier n = true)
include hidentifiers

theorem Progress.Matches.step (h : p.Matches ls p') (hp : p.standing.Proper names)
    (hp' : p'.standing.Proper names) (hstep : p.step names depth line = .ok q) :
    ∃ q', p'.step names depth line = .ok q' ∧ q.Matches (line :: ls) q' := by
  rcases step_cases hstep with ⟨hblank, rfl⟩ | ⟨hform, r, hvalue, rfl⟩
  · refine ⟨p', ?_, h.alike, h.assigned, h.errors, fun l hl hform => ?_, h.named⟩
    · unfold Progress.step
      rw [if_pos hblank]
    · rcases List.mem_cons.mp hl with rfl | hl
      · exact absurd hblank hform
      · exact h.results l hl hform
  · have hscope := h.alike.scope hp hp' (fun _ => Iff.rfl) hidentifiers
    refine ⟨p'.record line r, ?_, h.record line r⟩
    unfold Progress.step
    rw [if_neg hform, ← hscope.evaluate, hvalue]
    cases r <;> rfl

theorem Progress.Matches.run {ms : List Line} (h : p.Matches ls p')
    (hp : p.standing.Proper names) (hp' : p'.standing.Proper names)
    (hnames : ∀ line ∈ ms, ∀ n, line.form.name? = some n → n ∈ names)
    (hrun : Progress.run names depth p ms = .ok q) :
    ∃ q', Progress.run names depth p' ms = .ok q' ∧ q.Matches (ms.reverse ++ ls) q' := by
  induction ms generalizing p p' ls with
  | nil =>
    obtain rfl := Except.ok.inj hrun
    exact ⟨p', rfl, h⟩
  | cons line ms ih =>
    obtain ⟨p₁, hstep, hrest⟩ := run_cons hrun
    obtain ⟨p₁', hstep', hmatches⟩ := h.step hidentifiers hp hp' hstep
    have hline := hnames line List.mem_cons_self
    obtain ⟨q', hrun', hq⟩ := ih hmatches (proper_step hp hline hstep)
      (proper_step hp' hline hstep') (fun l hl => hnames l (List.mem_cons_of_mem line hl)) hrest
    refine ⟨q', ?_, ?_⟩
    · rw [Progress.run, hstep']
      exact hrun'
    · rwa [List.reverse_cons, List.append_assoc]

omit hidentifiers in
/-- Passes from alike standings leave the same maps. -/
theorem pass_of_alike (hidentifiers : ∀ n ∈ declared doc, isIdentifier n = true)
    (hb : before.Of doc) (ho : other.Of doc) (h : before.Alike other)
    (hpass : pass doc depth before = .ok after) :
    ∃ after', pass doc depth other = .ok after' ∧ after'.Same after := by
  obtain ⟨q, hrun, rfl⟩ := pass_eq_ok hpass
  have hstart : (Progress.mk before [] []).Matches [] ⟨other, [], []⟩ :=
    ⟨h, rfl, rfl, fun _ hl => absurd hl List.not_mem_nil, fun _ hn => absurd hn List.not_mem_nil⟩
  obtain ⟨q', hrun', hmatches⟩ := hstart.run hidentifiers hb.proper ho.proper
    (fun line hline n hn => mem_declared.mpr ⟨line, hline, hn⟩) hrun
  have hpass' : pass doc depth other =
      .ok ⟨⟨q'.standing.named.filter fun e => q'.assigned.contains e.1, q'.standing.results⟩,
        q'.errors⟩ := by
    unfold pass
    rw [hrun']
    rfl
  refine ⟨_, hpass', fun i => ?_, fun n => ?_, hmatches.errors⟩
  · rcases index_cases doc i with ⟨line, hline, hform, rfl⟩ | hnone
    · exact hmatches.results line
        (List.mem_append_left [] (List.mem_reverse.mpr hline)) hform
    · exact ((of_pass ho hpass').lines i hnone).trans ((of_pass hb hpass).lines i hnone).symm
  · dsimp only
    rw [named_kept, named_kept, hmatches.assigned]
    split
    · rename_i hn
      exact hmatches.named n hn
    · rfl

end Alike

section Repetition

variable {made left k : Nat} {previous final : PassResult} {settled : Settled}

/-- That the pass after the first `k` changes nothing, or something. -/
def Repeats (doc : List Line) (depth k : Nat) (unchanged : Bool) : Prop :=
  ∃ before after, afterPasses doc depth k = .ok before ∧ afterPasses doc depth (k + 1) = .ok after ∧
    after.standing.agrees before.standing = unchanged

/-- That pass `k` is the first one that changes nothing, and what it leaves. -/
structure SettlesAt (doc : List Line) (depth k : Nat) (final : PassResult) : Prop where
  passed : afterPasses doc depth k = .ok final
  unchanged : ∃ j, k = j + 1 ∧ Repeats doc depth j true
  least : ∀ j, j + 1 < k → Repeats doc depth j false

theorem afterPasses_of_pass (hprevious : afterPasses doc depth k = .ok previous)
    (hpass : pass doc depth previous.standing = .ok final) :
    afterPasses doc depth (k + 1) = .ok final := by
  rw [afterPasses, hprevious]
  exact hpass

/-- What a run that has come to an end has done. -/
theorem settle_spec (hprevious : afterPasses doc depth made = .ok previous)
    (hearlier : ∀ j, j < made → Repeats doc depth j false)
    (h : settle doc depth made previous left = .ok settled) :
    (settled.converged = true → SettlesAt doc depth settled.passes settled.result) ∧
      (settled.converged = false → settled.passes = made + left ∧
        afterPasses doc depth settled.passes = .ok settled.result ∧
        ∀ j, j < settled.passes → Repeats doc depth j false) := by
  induction left generalizing made previous with
  | zero =>
    obtain rfl := Except.ok.inj h
    exact ⟨fun hc => absurd hc Bool.false_ne_true, fun _ => ⟨rfl, hprevious, hearlier⟩⟩
  | succ left ih =>
    rw [settle] at h
    obtain ⟨next, hpass, h⟩ := bind_eq_ok h
    have hnext := afterPasses_of_pass hprevious hpass
    split at h
    · rename_i hagrees
      obtain rfl := Except.ok.inj h
      refine ⟨fun _ => ⟨hnext, ⟨made, rfl, previous, next, hprevious, hnext, hagrees⟩,
        fun j hj => hearlier j (Nat.lt_of_succ_lt_succ hj)⟩, fun hc => absurd hc (by simp)⟩
    · rename_i hchanged
      have hrest := ih hnext (fun j hj => ?_) h
      · refine ⟨hrest.1, fun hc => ?_⟩
        obtain ⟨hpasses, hlater⟩ := hrest.2 hc
        exact ⟨by omega, hlater⟩
      · rcases Nat.lt_succ_iff_lt_or_eq.mp hj with hj | rfl
        · exact hearlier j hj
        · exact ⟨previous, next, hprevious, hnext, Bool.eq_false_iff.mpr hchanged⟩

theorem settle_passes_gt (h : settle doc depth made previous left = .ok settled)
    (hc : settled.converged = true) : made < settled.passes := by
  induction left generalizing made previous with
  | zero =>
    obtain rfl := Except.ok.inj h
    exact absurd hc Bool.false_ne_true
  | succ left ih =>
    rw [settle] at h
    obtain ⟨next, _, h⟩ := bind_eq_ok h
    split at h
    · obtain rfl := Except.ok.inj h
      exact Nat.lt_succ_self made
    · exact Nat.lt_of_succ_lt (ih h)

/-- All passes after one that changes nothing leave the same maps. -/
theorem afterPasses_of_settlesAt (hidentifiers : ∀ n ∈ declared doc, isIdentifier n = true)
    (h : SettlesAt doc depth k final) {j : Nat} (hj : k ≤ j) :
    ∃ later, afterPasses doc depth j = .ok later ∧ later.Same final := by
  induction j, hj using Nat.le_induction with
  | base => exact ⟨final, h.passed, fun _ => rfl, fun _ => rfl, rfl⟩
  | succ j _ ih =>
    obtain ⟨later, hlater, hsame⟩ := ih
    obtain ⟨i, rfl, before, after, hbefore, hafter, hagrees⟩ := h.unchanged
    obtain rfl := Except.ok.inj (hafter.symm.trans h.passed)
    obtain ⟨before', hbefore', hpass⟩ := afterPasses_succ hafter
    obtain rfl := Except.ok.inj (hbefore'.symm.trans hbefore)
    have hb := of_afterPasses hbefore
    have halike : before'.standing.Alike later.standing := by
      have hlast := alike_of_agrees (of_afterPasses hafter).proper hagrees
      exact ⟨fun n => hsame.named n ▸ sameOutcome_symm (hlast.named n),
        fun i => hsame.results i ▸ sameOutcome_symm (hlast.results i)⟩
    obtain ⟨next, hnext, hnextSame⟩ :=
      pass_of_alike hidentifiers hb (of_afterPasses hlater) halike hpass
    exact ⟨next, afterPasses_of_pass hlater hnext, hnextSame⟩

end Repetition

section Bound

variable {before : Standing} {made left left' : Nat} {previous : PassResult} {settled : Settled}

/-- A pass is the same under two bounds under which its lines have the same outcomes. -/
theorem pass_congr (h : ∀ line scope, InPass doc depth before line scope →
      InPass doc depth' before line scope →
        evaluate Builtin.table depth' scope line.form.expression =
          evaluate Builtin.table depth scope line.form.expression) :
    pass doc depth' before = pass doc depth before := by
  have hrest : ∀ (ms done : List Line) (p : Progress), doc = done ++ ms →
      Progress.run (declared doc) depth ⟨before, [], []⟩ done = .ok p →
      Progress.run (declared doc) depth' ⟨before, [], []⟩ done = .ok p →
      Progress.run (declared doc) depth' p ms = Progress.run (declared doc) depth p ms := by
    intro ms
    induction ms with
    | nil => exact fun _ _ _ _ _ => rfl
    | cons line ms ih =>
      intro done p hdoc hdone hdone'
      have hstep : p.step (declared doc) depth' line = p.step (declared doc) depth line := by
        unfold Progress.step
        split
        · rfl
        · rename_i hform
          rw [h line _ ⟨hform, done, ms, p, hdoc, hdone, rfl⟩
            ⟨hform, done, ms, p, hdoc, hdone', rfl⟩]
      rw [Progress.run, Progress.run, hstep]
      cases hq : p.step (declared doc) depth line with
      | error b => rfl
      | ok q =>
        refine ih (done ++ [line]) q (by rw [hdoc, List.append_assoc, List.singleton_append]) ?_ ?_
        · rw [run_concat hdone, hq]
        · rw [run_concat hdone', hstep, hq]
  unfold pass
  rw [hrest doc [] ⟨before, [], []⟩ rfl rfl rfl]

/-- A run that converges comes to the same end under another bound and with another number of
passes left, if the passes that both come to are the same. -/
theorem settle_congr
    (h : ∀ rest rest' before, Comes doc depth left previous.standing (rest + 1) before →
      Comes doc depth' left' previous.standing (rest' + 1) before →
        pass doc depth' before = pass doc depth before)
    (hsettled : settle doc depth made previous left = .ok settled)
    (hconverged : settled.converged = true) (hleft : settled.passes ≤ made + left') :
    settle doc depth' made previous left' = .ok settled := by
  induction left generalizing made previous left' with
  | zero =>
    obtain rfl := Except.ok.inj hsettled
    exact absurd hconverged Bool.false_ne_true
  | succ left ih =>
    have hmade : made < settled.passes := settle_passes_gt hsettled hconverged
    obtain ⟨more, rfl⟩ : ∃ more, left' = more + 1 := ⟨left' - 1, by omega⟩
    have hpass := h left more _ .here .here
    rw [settle] at hsettled ⊢
    rw [hpass]
    obtain ⟨next, hnext, hsettled⟩ := bind_eq_ok hsettled
    rw [hnext]
    change (if next.standing.agrees previous.standing = true then _ else _) = _
    split at hsettled
    · rename_i hagrees
      rw [if_pos hagrees]
      exact hsettled
    · rename_i hchanged
      have hchanged' := Bool.eq_false_iff.mpr hchanged
      rw [if_neg hchanged]
      refine ih (fun rest rest' before hcomes hcomes' => ?_) hsettled (by omega)
      exact h rest rest' before (.later hnext hchanged' hcomes)
        (.later (hpass.trans hnext) hchanged' hcomes')

end Bound

section Budget

variable {text : List Char} {precision : Value} {m m' : Nat} {o : Outcome}

/-- That a run evaluates a line in which calls nest deeper than the bound. -/
def MeetsBound (text : List Char) (limit : Nat) : Prop :=
  ∃ line scope, Evaluated text limit line scope ∧
    TooDeep (evaluate Builtin.table limit scope line.form.expression)

/-- That an outcome lists what a pass has left. -/
structure Outcome.Lists (o : Outcome) (final : PassResult) : Prop where
  results : o.results = Outcome.sortByIndex final.standing.results
  named : o.named = sortByKey final.standing.named
  errors : o.errors = final.errors

/-- Without letters there are no calls. -/
theorem not_meetsBound_of_letterCount
    (h : ∀ line ∈ ofText text, letterCount line.form.expression = 0) : ¬ MeetsBound text m := by
  rintro ⟨line, scope, ⟨_, _, _, _, ls, ms, _, hdoc, _, _⟩, hdeep⟩
  have hline : line ∈ ofText text :=
    hdoc ▸ List.mem_append_right ls List.mem_cons_self
  exact not_tooDeep_of_letterCount (h line hline) hdeep

/-- The passes of two runs are the same where the runs come to the same standing, if neither of them
meets its bound. -/
theorem pass_of_not_meetsBound (h : ¬ MeetsBound text m) (h' : ¬ MeetsBound text m')
    (rest rest' : Nat) (before : Standing)
    (hcomes : Comes (ofText text) m m .empty (rest + 1) before)
    (hcomes' : Comes (ofText text) m' m' .empty (rest' + 1) before) :
    pass (ofText text) m' before = pass (ofText text) m before := by
  refine pass_congr fun line scope hline hline' => ?_
  refine evaluate_of_not_tooDeep (fun hdeep => h ?_) (fun hdeep => h' ?_)
  · exact ⟨line, scope, ⟨rest, before, hcomes, hline⟩, hdeep⟩
  · exact ⟨line, scope, ⟨rest', before, hcomes', hline'⟩, hdeep⟩

/-- What a run that has an outcome has come to. -/
theorem settled_of_run (h : run text precision m = .ok o) :
    ∃ settled, settle (ofText text) m 0 ⟨.empty, []⟩ m = .ok settled ∧
      o.passes = settled.passes ∧ o.converged = settled.converged ∧ o.Lists settled.result := by
  obtain ⟨settled, hsettled, h⟩ := bind_eq_ok h
  obtain ⟨_, _, h⟩ := bind_eq_ok h
  obtain rfl := Except.ok.inj h
  exact ⟨settled, hsettled, rfl, rfl, rfl, rfl, rfl⟩

theorem run_eq_of_settle {settled : Settled} (h : run text precision m = .ok o)
    (hsettled : settle (ofText text) m 0 ⟨.empty, []⟩ m = .ok settled)
    (hsettled' : settle (ofText text) m' 0 ⟨.empty, []⟩ m' = .ok settled) :
    run text precision m' = .ok o := by
  unfold run at h ⊢
  dsimp only at h ⊢
  rw [hsettled] at h
  rw [hsettled']
  exact h

/-- A run that converges has made passes up to the first one that changes nothing. All passes after
it would leave the same maps, and every number that allows for these passes gives the same outcome,
unless calls nest too deep. A run that does not converge has made all its passes, and each of them
has changed something. -/
theorem runChecked_budget (text : List Char) (precision : Value) (limit : Int) (o : Outcome)
    (h : runChecked text precision limit = .ok o) :
    (o.converged = true → ∃ final, SettlesAt (ofText text) limit.toNat o.passes final ∧
      o.Lists final ∧
      (∀ j, o.passes ≤ j → ∃ later,
        afterPasses (ofText text) limit.toNat j = .ok later ∧ later.Same final) ∧
      ∀ limit' : Int, (o.passes : Int) ≤ limit' → ¬ MeetsBound text limit.toNat →
        ¬ MeetsBound text limit'.toNat → runChecked text precision limit' = .ok o) ∧
    (o.converged = false → (o.passes : Int) = limit ∧
      ∀ j, j < o.passes → Repeats (ofText text) limit.toNat j false) := by
  unfold runChecked at h
  split at h
  · exact absurd h (by simp)
  rename_i hpositive
  obtain ⟨settled, hsettled, hpasses, hconverged, hlists⟩ := settled_of_run h
  obtain ⟨hends, hexhausted⟩ :=
    settle_spec rfl (fun _ hj => absurd hj (Nat.not_lt_zero _)) hsettled
  rw [hconverged, hpasses]
  refine ⟨fun hc => ⟨settled.result, hends hc, hlists, fun j hj => ?_,
    fun limit' hle hbound hbound' => ?_⟩, fun hc => ?_⟩
  · exact afterPasses_of_settlesAt (fun _ => isIdentifier_declared) (hends hc) hj
  · have hmade := settle_passes_gt hsettled hc
    rw [runChecked, if_neg (by omega)]
    refine run_eq_of_settle h hsettled ?_
    exact settle_congr (pass_of_not_meetsBound hbound hbound') hsettled hc (by omega)
  · obtain ⟨hmade, _, hrepeats⟩ := hexhausted hc
    exact ⟨by omega, hrepeats⟩

/-- A line that refers to a later one. -/
def laterLine : List Char := "= 2 * @2\n= 3".toList

theorem laterLine_budget :
    ∃ o, runChecked laterLine (.int 2) 5 = .ok o ∧ o.converged = true ∧ o.passes = 3 ∧
      runChecked laterLine (.int 2) 3 = .ok o := by
  have hcheck : (match settle (ofText laterLine) 5 0 ⟨.empty, []⟩ 5 with
      | .ok settled => settled.converged && decide (settled.passes = 3)
      | .error _ => false) = true := by decide +kernel
  have hbound : ∀ m, ¬ MeetsBound laterLine m :=
    fun m => not_meetsBound_of_letterCount (by decide +kernel)
  cases hsettled : settle (ofText laterLine) 5 0 ⟨.empty, []⟩ 5 with
  | error b =>
    rw [hsettled] at hcheck
    exact absurd hcheck Bool.false_ne_true
  | ok settled =>
    rw [hsettled] at hcheck
    simp only [Bool.and_eq_true, decide_eq_true_iff] at hcheck
    obtain ⟨hconverged, hpasses⟩ := hcheck
    obtain ⟨o, hrun⟩ : ∃ o, run laterLine (.int 2) 5 = .ok o := by
      unfold run
      dsimp only
      rw [hsettled]
      exact ⟨_, rfl⟩
    obtain ⟨settled', hsettled', hpasses', hconverged', _⟩ := settled_of_run hrun
    obtain rfl := Except.ok.inj (hsettled.symm.trans hsettled')
    obtain ⟨_, _, _, _, hlarger⟩ := (runChecked_budget laterLine (.int 2) 5 o hrun).1
      (hconverged'.trans hconverged)
    exact ⟨o, hrun, hconverged'.trans hconverged, hpasses'.trans hpasses,
      hlarger 3 (by omega) (hbound _) (hbound _)⟩

end Budget

end Reckoner.Document
