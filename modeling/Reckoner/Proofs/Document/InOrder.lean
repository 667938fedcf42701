import Reckoner.Proofs.Document.Converged
import Reckoner.Proofs.Document.Dependencies

/-!
Evaluation in dependency order. When every line comes after the lines that it mentions, a single
pass evaluates each line with the values that it has at the end of a run of the document. So one
pass in that order gives what the run gives.
-/
namespace Reckoner.Document

open Text Formula

variable {mentions : Nat → Nat → Prop} {names : List (List Char)} {depth : Nat}
variable {doc order ls rest : List Line} {line : Line} {p : Progress} {after : PassResult}

/-- That a pass under way has the outcome for a line that another pass has recorded. -/
structure Progress.Follows (p : Progress) (after : PassResult) (line : Line) : Prop where
  same : SameAt p.standing after.standing line
  error : Assoc.get? p.errors line.index = Assoc.get? after.errors line.index

section Record

variable {r : Except Fault Float}

theorem follows_record_self (hrecorded : Recorded after line r)
    (herror : Assoc.get? p.errors line.index = none)
    (hvalue : ∀ n, line.form.name? = some n → Assoc.get? p.standing.named n = none) :
    (p.record line r).Follows after line := by
  refine ⟨⟨?_, fun n hn => ?_⟩, ?_⟩
  · rw [results_record, if_pos rfl, hrecorded.result]
  · rw [named_record, if_pos hn, hvalue n hn, Option.or_none, hrecorded.value n hn]
  · rw [errors_record, if_pos rfl, herror, Option.or_none, hrecorded.error]

/-- The outcomes of other lines stay. -/
theorem follows_record {m : Line} (h : p.Follows after m) (hindex : line.index ≠ m.index)
    (hname : ∀ n, m.form.name? = some n → line.form.name? ≠ some n) :
    (p.record line r).Follows after m := by
  refine ⟨⟨?_, fun n hn => ?_⟩, ?_⟩
  · rw [results_record, if_neg hindex, h.same.result]
  · rw [named_record, if_neg (hname n hn), h.same.value n hn]
  · rw [errors_record, if_neg hindex, h.error]

end Record

section Run

/-- That the standing at the end of a pass gives every line its recorded outcome. -/
def Solves (depth : Nat) (doc : List Line) (after : PassResult) : Prop :=
  ∀ line ∈ doc, line.form ≠ .blank → ∃ r,
    evaluate Builtin.table depth (after.standing.scope (declared doc)) line.form.expression =
      asFailure r ∧ Recorded after line r

theorem mem_declared_of_perm (h : order.Perm doc) {n : List Char} :
    n ∈ declared order ↔ n ∈ declared doc := (h.filterMap _).mem_iff

theorem distinct_of_perm (hd : Distinct doc) (h : order.Perm doc) : Distinct order :=
  ⟨(h.map _).nodup_iff.mpr hd.indices, (h.filterMap _).nodup_iff.mpr hd.names⟩

theorem proper_of_names {names' : List (List Char)} {s : Standing} (h : s.Proper names)
    (hnames : names ⊆ names') : s.Proper names' :=
  ⟨h.named_nodup, h.results_nodup, List.Subset.trans h.declared hnames, h.named_finite,
    h.results_finite⟩

/-- A pass that is under way over lines of a document has a standing of the document. -/
theorem of_run {q : Progress} (h : (ls ++ rest).Perm doc)
    (hrun : Progress.run (declared (ls ++ rest)) depth ⟨.empty, [], []⟩ ls = .ok q) :
    q.standing.Of doc := by
  have hproper : q.standing.Proper (declared (ls ++ rest)) :=
    proper_run proper_empty (fun m hm n hn =>
      mem_declared.mpr ⟨m, List.mem_append_left rest hm, hn⟩) hrun
  refine ⟨proper_of_names hproper fun n hn => (mem_declared_of_perm h).mp hn, fun i hi => ?_⟩
  exact (results_run hrun fun m hm => hi m (h.mem_iff.mp (List.mem_append_left rest hm))).1

/-- The order in which names are declared does not matter. -/
theorem evaluate_scope_of_perm {s : Standing} (h : order.Perm doc) (hs : s.Proper (declared doc))
    (hidentifiers : ∀ n ∈ declared doc, isIdentifier n = true) (text : List Char) :
    evaluate Builtin.table depth (s.scope (declared order)) text =
      evaluate Builtin.table depth (s.scope (declared doc)) text := by
  have hs' := proper_of_names hs fun n hn => (mem_declared_of_perm h).mpr hn
  have hscope := (Standing.Alike.refl s).scope hs hs' (fun _ => (mem_declared_of_perm h).symm)
    hidentifiers
  exact (hscope.evaluate Builtin.table depth text).symm

variable (hd : Distinct doc) (hlocal : Local mentions depth doc) (hirrefl : ∀ i, ¬ mentions i i)
variable (hidentifiers : ∀ n ∈ declared doc, isIdentifier n = true)
variable (hafter : after.standing.Of doc)
include hd hlocal hirrefl hidentifiers hafter

/-- Lines that come after those that they mention are given the outcomes of the solution. -/
theorem run_follows (hsolves : Solves depth doc after)
    (horder : DependencyOrder mentions doc (ls ++ rest)) :
    ∃ p, Progress.run (declared (ls ++ rest)) depth ⟨.empty, [], []⟩ ls = .ok p ∧
      ∀ m ∈ ls, m.form ≠ .blank → p.Follows after m := by
  induction ls using List.reverseRecOn generalizing rest with
  | nil => exact ⟨_, rfl, fun m hm => absurd hm List.not_mem_nil⟩
  | append_singleton ls line ih =>
    rw [List.append_assoc, List.singleton_append] at horder ⊢
    obtain ⟨p, hrun, hfollows⟩ := ih horder
    rw [run_concat hrun]
    by_cases hform : line.form = .blank
    · refine ⟨p, ?_, fun m hm hmform => ?_⟩
      · unfold Progress.step
        rw [if_pos hform]
      · rcases List.mem_append.mp hm with hm | hm
        · exact hfollows m hm hmform
        · rw [List.mem_singleton.mp hm] at hmform
          exact absurd hform hmform
    have hdistinct := distinct_of_perm hd horder.perm
    have hfresh : ∀ m ∈ ls, m.index ≠ line.index := fun m hm =>
      (index_ne hdistinct.indices hm List.mem_cons_self).symm
    have hnamed : ∀ m ∈ ls, ∀ n, m.form.name? = some n → line.form.name? ≠ some n :=
      fun m hm n hn => hdistinct.name_ne hm List.mem_cons_self hn
    have hof := of_run horder.perm hrun
    obtain ⟨r, hvalue, hrecorded⟩ :=
      hsolves line (horder.perm.mem_iff.mp (List.mem_append_right ls List.mem_cons_self)) hform
    have hevaluate : evaluate Builtin.table depth (p.standing.scope (declared (ls ++ line :: rest)))
        line.form.expression = asFailure r := by
      rw [evaluate_scope_of_perm horder.perm hof.proper hidentifiers, ← hvalue]
      refine hlocal line ?_ hform _ _ hof hafter fun m hm hmform hmentions => ?_
      · exact horder.perm.mem_iff.mp (List.mem_append_right ls List.mem_cons_self)
      · exact (hfollows m (horder.mem_of_mentions hirrefl hm hmentions) hmform).same
    refine ⟨p.record line r, ?_, fun m hm hmform => ?_⟩
    · unfold Progress.step
      rw [if_neg hform, hevaluate]
      cases r <;> rfl
    · rcases List.mem_append.mp hm with hm | hm
      · exact follows_record (hfollows m hm hmform) (hfresh m hm).symm (hnamed m hm)
      · obtain rfl := List.mem_singleton.mp hm
        refine follows_record_self hrecorded ?_ fun n hn => ?_
        · exact (results_run hrun fun l hl _ => hfresh l hl).2
        · exact (named_run hrun fun l hl hname => hnamed l hl n hname hn).1

end Run

section Pass

/-- One pass in dependency order from empty standing gives what a pass that changes nothing has
given. -/
theorem pass_in_order {before : Standing} (hd : Distinct doc)
    (hidentifiers : ∀ n ∈ declared doc, isIdentifier n = true) (hlocal : Local mentions depth doc)
    (hirrefl : ∀ i, ¬ mentions i i) (horder : DependencyOrder mentions doc order)
    (hbefore : before.Of doc) (hpass : pass doc depth before = .ok after)
    (hagrees : after.standing.agrees before = true) :
    ∃ out, pass order depth .empty = .ok out ∧
      (∀ i, Assoc.get? out.standing.results i = Assoc.get? after.standing.results i) ∧
      (∀ n, Assoc.get? out.standing.named n = Assoc.get? after.standing.named n) ∧
      ∀ i, Assoc.get? out.errors i = Assoc.get? after.errors i := by
  have hafter := of_pass hbefore hpass
  have hsolves : Solves depth doc after := fun line hline hform =>
    pass_solves hd hidentifiers hbefore.proper hpass hagrees hline hform
  obtain ⟨q, hrun, hfollows⟩ : ∃ q,
      Progress.run (declared order) depth ⟨.empty, [], []⟩ order = .ok q ∧
        ∀ m ∈ order, m.form ≠ .blank → q.Follows after m := by
    rw [← List.append_nil order] at horder
    have hall := run_follows hd hlocal hirrefl hidentifiers hafter hsolves horder
    rwa [List.append_nil] at hall
  have hlines : ∀ i, Assoc.get? q.standing.results i = Assoc.get? after.standing.results i ∧
      Assoc.get? q.errors i = Assoc.get? after.errors i := by
    intro i
    rcases index_cases doc i with ⟨line, hline, hform, rfl⟩ | hnone
    · have h := hfollows line (horder.perm.mem_iff.mpr hline) hform
      exact ⟨h.same.result, h.error⟩
    · have hempty := results_run hrun fun line hline => hnone line (horder.perm.mem_iff.mp hline)
      rw [hempty.1, hempty.2, hafter.lines i hnone, (results_pass_of_no_line hpass hnone).2]
      exact ⟨rfl, rfl⟩
  have hnames : ∀ n, Assoc.get? q.standing.named n = Assoc.get? after.standing.named n := by
    intro n
    by_cases hn : n ∈ declared doc
    · obtain ⟨line, hline, hname⟩ := mem_declared.mp hn
      have h := hfollows line (horder.perm.mem_iff.mpr hline) (form_ne_blank hname)
      exact h.same.value n hname
    · rw [named_pass_of_not_declared hpass hn]
      exact (named_run hrun fun line hline hname =>
        hn (mem_declared.mpr ⟨line, horder.perm.mem_iff.mp hline, hname⟩)).1
  refine ⟨⟨⟨q.standing.named.filter fun e => q.assigned.contains e.1, q.standing.results⟩,
    q.errors⟩, ?_, fun i => (hlines i).1, fun n => ?_, fun i => (hlines i).2⟩
  · unfold pass
    rw [hrun]
    rfl
  · dsimp only
    rw [named_kept]
    split
    · exact hnames n
    · rename_i hnot
      rw [← hnames n]
      exact (named_run_of_not_assigned hrun hnot).2.symm

end Pass

end Reckoner.Document
