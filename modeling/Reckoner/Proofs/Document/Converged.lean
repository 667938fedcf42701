import Reckoner.Document.Run
import Reckoner.Proofs.Document.Lines

/-!
Runs that converge. In the last pass every line is evaluated between a standing and one with alike
values, so the standing at the end gives each line the outcome that the pass has recorded for it.
-/
namespace Reckoner.Document

open Text Data Formula

section Settle

variable {doc : List Line} {depth : Nat}

/-- A run that converges ends with a pass that changes nothing. -/
theorem settle_converged {made left : Nat} {previous : PassResult} {settled : Settled}
    (hp : previous.standing.Of doc) (h : settle doc depth made previous left = .ok settled)
    (hc : settled.converged = true) :
    ∃ before : Standing, before.Of doc ∧ pass doc depth before = .ok settled.result ∧
      settled.result.standing.agrees before = true := by
  induction left generalizing made previous with
  | zero =>
    obtain rfl := Except.ok.inj h
    exact absurd hc Bool.false_ne_true
  | succ left ih =>
    rw [settle] at h
    obtain ⟨next, hpass, h⟩ := bind_eq_ok h
    split at h
    · rename_i hagrees
      obtain rfl := Except.ok.inj h
      exact ⟨previous.standing, hp, hpass, hagrees⟩
    · exact ih (of_pass hp hpass) h

/-- In a pass that changes nothing the standing afterwards gives every line its recorded
outcome. -/
theorem pass_solves {before : Standing} {after : PassResult} {line : Line} (hd : Distinct doc)
    (hnames : ∀ n ∈ declared doc, isIdentifier n = true) (hb : before.Proper (declared doc))
    (hpass : pass doc depth before = .ok after) (hagrees : after.standing.agrees before = true)
    (hline : line ∈ doc) (hform : line.form ≠ .blank) :
    ∃ r, evaluate Builtin.table depth (after.standing.scope (declared doc)) line.form.expression =
        asFailure r ∧ Recorded after line r := by
  obtain ⟨s, r, hs, hbetween, hvalue, hrecorded⟩ := pass_line hd hb hpass hline hform
  have ha := proper_pass hb hpass
  have halike := hbetween.alike (alike_of_agrees ha hagrees)
  refine ⟨r, ?_, hrecorded⟩
  rw [← (halike.scope hs ha (fun _ => Iff.rfl) hnames).evaluate]
  exact hvalue

end Settle

section Sorted

variable {names : List (List Char)} {s t : Standing}

/-- Sorting the entries of a standing changes nothing about it. -/
theorem proper_of_perm (h : s.Proper names) (hnamed : s.named.Perm t.named)
    (hresults : s.results.Perm t.results) : t.Proper names :=
  ⟨(hnamed.map _).nodup_iff.mp h.named_nodup, (hresults.map _).nodup_iff.mp h.results_nodup,
    fun _ hn => h.declared ((hnamed.map _).mem_iff.mpr hn),
    fun e he => h.named_finite e (hnamed.mem_iff.mpr he),
    fun e he => h.results_finite e (hresults.mem_iff.mpr he)⟩

theorem alike_of_perm (h : s.Proper names) (hnamed : s.named.Perm t.named)
    (hresults : s.results.Perm t.results) : s.Alike t := by
  refine ⟨fun n => ?_, fun i => ?_⟩
  · rw [Assoc.get?_perm h.named_nodup hnamed]
    exact sameOutcome_refl _
  · rw [Assoc.get?_perm h.results_nodup hresults]
    exact sameOutcome_refl _

theorem perm_sortByKey {α : Type} (entries : List (List Char × α)) :
    entries.Perm (sortByKey entries) := (List.mergeSort_perm _ _).symm

theorem perm_sortByIndex {α : Type} (entries : List (Nat × α)) :
    entries.Perm (Outcome.sortByIndex entries) := (List.mergeSort_perm _ _).symm

end Sorted

/-- What the outcome of a run is made of. -/
theorem run_eq_ok {s : List Char} {precision : Value} {limit : Nat} {o : Outcome}
    (h : run s precision limit = .ok o) :
    ∃ settled, settle (ofText s) limit 0 ⟨.empty, []⟩ limit = .ok settled ∧
      o.named = sortByKey settled.result.standing.named ∧
      o.results = Outcome.sortByIndex settled.result.standing.results ∧
      o.errors = settled.result.errors ∧ o.converged = settled.converged := by
  obtain ⟨settled, hsettled, h⟩ := bind_eq_ok h
  obtain ⟨_, _, h⟩ := bind_eq_ok h
  obtain rfl := Except.ok.inj h
  exact ⟨settled, hsettled, rfl, rfl, rfl, rfl⟩

/-- A run that converges ends with a pass that changes nothing, and its outcome lists what this pass
leaves. -/
theorem runChecked_converged {s : List Char} {precision : Value} {limit : Int} {o : Outcome}
    (hrun : runChecked s precision limit = .ok o) (hc : o.converged = true) :
    ∃ before after, before.Of (ofText s) ∧ pass (ofText s) limit.toNat before = .ok after ∧
      after.standing.agrees before = true ∧ after.standing.named.Perm o.named ∧
      after.standing.results.Perm o.results ∧ o.errors = after.errors := by
  unfold runChecked at hrun
  split at hrun
  · exact absurd hrun (by simp)
  obtain ⟨settled, hsettled, hnamed, hresults, herrors, hconverged⟩ := run_eq_ok hrun
  obtain ⟨before, hbefore, hpass, hagrees⟩ :=
    settle_converged (of_empty _) hsettled (hconverged ▸ hc)
  exact ⟨before, settled.result, hbefore, hpass, hagrees,
    hnamed ▸ perm_sortByKey settled.result.standing.named,
    hresults ▸ perm_sortByIndex settled.result.standing.results, herrors⟩

/-- The scope of the values at the end of a run; declared names without a value are pending. -/
def Outcome.scope (o : Outcome) (doc : List Line) : Scope :=
  (Standing.mk o.named o.results).scope (declared doc)

/-- The outcome of a run that has converged satisfies every line at once: evaluated in the scope of
the final values, a line gives its result, or fails with the kind that is listed for it. -/
theorem converged_solves (s : List Char) (precision : Value) (limit : Int) (o : Outcome)
    (hnames : (declared (ofText s)).Nodup) (hrun : runChecked s precision limit = .ok o)
    (hconverged : o.converged = true) (line : Line) (hline : line ∈ ofText s)
    (hform : line.form ≠ .blank) :
    (∀ x, Assoc.get? o.results line.index = some x →
      evaluate Builtin.table limit (o.scope (ofText s)) line.form.expression = .ok x) ∧
    (∀ kind, Assoc.get? o.errors line.index = some kind → ∃ f,
      evaluate Builtin.table limit (o.scope (ofText s)) line.form.expression =
        .error (.fault f) ∧ f.kind = kind) ∧
    ((Assoc.get? o.results line.index).isSome = true ↔
      Assoc.get? o.errors line.index = none) := by
  obtain ⟨before, after, hbefore, hpass, hagrees, hnamed, hresults, herrors⟩ :=
    runChecked_converged hrun hconverged
  have hlimit : 1 ≤ limit := by
    by_contra hlimit
    unfold runChecked at hrun
    rw [if_pos (Int.not_le.mp hlimit)] at hrun
    exact absurd hrun (by simp)
  have hidentifiers : ∀ n ∈ declared (ofText s), isIdentifier n = true :=
    fun n hn => isIdentifier_declared hn
  obtain ⟨r, hvalue, hrecorded⟩ :=
    pass_solves (distinct_ofText hnames) hidentifiers hbefore.proper hpass hagrees hline hform
  have ha := (of_pass hbefore hpass).proper
  have hscope : (after.standing.scope (declared (ofText s))).Agrees (o.scope (ofText s)) :=
    (alike_of_perm ha hnamed hresults).scope ha (proper_of_perm ha hnamed hresults)
      (fun _ => Iff.rfl) hidentifiers
  have hdepth : ((limit.toNat : Nat) : Int) = limit := Int.toNat_of_nonneg (by omega)
  rw [hdepth, hscope.evaluate] at hvalue
  have hresult : Assoc.get? o.results line.index = r.toOption :=
    (Assoc.get?_perm ha.results_nodup hresults line.index).symm.trans hrecorded.result
  have herror : Assoc.get? o.errors line.index = faultKind? r := by
    rw [herrors]
    exact hrecorded.error
  rw [hresult, herror, hvalue]
  cases r with
  | ok y =>
    exact ⟨fun x hx => congrArg Except.ok (Option.some.inj hx),
      fun kind h => absurd h (by simp [faultKind?]),
      fun _ => rfl, fun _ => rfl⟩
  | error f =>
    refine ⟨fun x hx => absurd hx (by simp [Except.toOption]), fun kind h => ?_,
      fun h => absurd h Bool.false_ne_true, fun h => absurd h (by simp [faultKind?])⟩
    exact ⟨f, rfl, Option.some.inj h⟩

/-- A name that is assigned from itself, and a line that fails. -/
def selfReference : List Char := "a = 0 * a + 1\n= 1 / 0".toList

theorem selfReference_solved :
    (declared (ofText selfReference)).Nodup ∧ ∃ o, runChecked selfReference (.int 2) 5 = .ok o ∧
      o.converged = true ∧
      evaluate Builtin.table 5 (o.scope (ofText selfReference)) "0 * a + 1".toList = .ok 1 ∧
      ∃ f, evaluate Builtin.table 5 (o.scope (ofText selfReference)) "1 / 0".toList =
        .error (.fault f) ∧ f.kind = .divisionByZero := by
  have hnames : (declared (ofText selfReference)).Nodup := by decide +kernel
  have hlines : (ofText selfReference).map (fun line => (line.index, line.form)) =
      [(1, .assignment ['a'] "0 * a + 1".toList), (2, .plain "1 / 0".toList)] := by decide +kernel
  have hcheck : (match runChecked selfReference (.int 2) 5 with
      | .ok o => o.converged && decide (Assoc.get? o.results 1 = some 1) &&
        decide (Assoc.get? o.errors 2 = some .divisionByZero)
      | .error _ => false) = true := by decide +kernel
  cases hrun : runChecked selfReference (.int 2) 5 with
  | error b =>
    rw [hrun] at hcheck
    exact absurd hcheck Bool.false_ne_true
  | ok o =>
    rw [hrun] at hcheck
    simp only [Bool.and_eq_true, decide_eq_true_iff] at hcheck
    obtain ⟨⟨hconverged, hresult⟩, herror⟩ := hcheck
    have hline : ∀ {i form}, (i, form) ∈ (ofText selfReference).map (fun line =>
        (line.index, line.form)) → ∃ line ∈ ofText selfReference, line.index = i ∧
          line.form = form := by
      intro i form h
      obtain ⟨line, hmem, heq⟩ := List.mem_map.mp h
      exact ⟨line, hmem, (Prod.mk.inj heq).1, (Prod.mk.inj heq).2⟩
    rw [hlines] at hline
    obtain ⟨first, hmem, hindex, hform⟩ := hline List.mem_cons_self
    obtain ⟨second, hmem', hindex', hform'⟩ := hline (List.mem_cons_of_mem _ List.mem_cons_self)
    have hsolved := converged_solves selfReference (.int 2) 5 o hnames hrun hconverged first hmem
      (by rw [hform]; decide)
    have hsolved' := converged_solves selfReference (.int 2) 5 o hnames hrun hconverged second hmem'
      (by rw [hform']; decide)
    rw [hindex, hform] at hsolved
    rw [hindex', hform'] at hsolved'
    exact ⟨hnames, o, rfl, hconverged, hsolved.1 1 hresult, hsolved'.2.1 _ herror⟩

end Reckoner.Document
